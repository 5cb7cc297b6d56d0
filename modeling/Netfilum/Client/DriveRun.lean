import Netfilum.Client.DriveCalls

namespace Netfilum

open FileTree Posix Program RpcServer Rust

/-!
# Runs on the drive

The callbacks that open, move and close handles, and runs of callbacks.

* `serves_openFile`, `serves_create`, `serves_rename`, `serves_setDelete`, `serves_cleanup`,
  `serves_close` — what they return, and the handles they leave.
* `Supported.serves` — any callback does what its operation does.
* `drive_refines` — in every run of callbacks that are supported, a drive is what is seen.
-/

variable {Buf : Type} {fs : RpcFsContext Tree Buf} {srv : RpcServer} {os : Os} {desk : Desk Buf}
  {d : Drive Name UInt8} {i : Nat} {x : Handle Name}

/-! ### Handles that change -/

section

variable {call : DriveCall} {limit : Nat} {w' : World Tree Buf} {T : FileTree Name UInt8}
  {result : EStateM.Result Stop (Desk Buf) Value} {value : Value} {answer : Answer Name UInt8}
  {context : RpcFileContext Buf} {x' : Handle Name}

/-- A call that is answered, and changes its handle. -/
theorem Serves.of_changed (m : Presents srv desk d) (hx : d.handle i = some x)
    (hrun : result = .ok value { desk with world := w'.setContext i context })
    (hact : d.act limit call.op
      = (some answer, { d with tree := T, handle := Function.update d.handle i (some x') }))
    (hgives : Gives call value answer) (hplain : ∃ h : srv.Plain w'.net, h.view = T)
    (hcontexts : w'.contexts = desk.world.contexts) (hholds : Matches context x') :
    Serves fs srv limit desk d call result := by
  subst hrun
  refine ⟨?_, ?_⟩
  · rw [hact]
    exact .given hgives
  · rw [hact]
    exact m.changes hx hplain hcontexts hholds

/-- A call that opens a handle, and ends with file information. -/
theorem Serves.of_opened (m : Presents srv desk d) (hs : Supported fs srv os desk call)
    {attr : FileAttr} {n : Node UInt8} {y : ClientM Tree Buf (RpcFileContext Buf × FileInfo)}
    (hcall : call.run (fs.connected srv os) desk
      = (do let opened ← inside y; install opened.1; return Value.info opened.2) desk)
    (hy : y desk.world = ((fun info => (context, info)) <$> checked (fillFileInfo attr)) w')
    (hdepicts : Depicts attr n)
    (hact : d.act os.maxBytes call.op = (some (.node n), d.opened T x))
    (hplain : ∃ h : srv.Plain w'.net, h.view = T)
    (hcontexts : w'.contexts = desk.world.contexts) (hholds : Matches context x) :
    Serves fs srv os.maxBytes desk d call (call.run (fs.connected srv os) desk) := by
  cases hfill : fillFileInfo attr with
  | error message =>
    have hpanic : y desk.world = .error (.panic message) w' := by
      rw [hy, hfill]
      rfl
    have hrun := hcall.trans (inside_of_error hpanic)
    exact absurd (congrArg outcome hrun) (hs.returned message)
  | ok info =>
    have hok : y desk.world = .ok (context, info) w' := by
      rw [hy, hfill]
      rfl
    have hrun := hcall.trans (inside_of_ok hok)
    rw [hrun]
    refine ⟨?_, ?_⟩
    · rw [hact]
      exact .given (.info (displays_of_fill hdepicts hfill))
    · rw [hact]
      exact m.installs hplain hcontexts hholds

end

/-- The kind that attributes report is that of the node. -/
theorem Depicts.kind {attr : FileAttr} {n : Node UInt8} (h : Depicts attr n) :
    attr.kind.kind = n.kind := by
  cases n with
  | file data => exact congrArg EntryKind.kind h.1
  | dir => exact congrArg EntryKind.kind (h : attr.kind = .directory)

/-- A handle is opened on what stands at a path. -/
theorem serves_openFile (m : Presents srv desk d) {fileName : List UInt16}
    (hs : Supported fs srv os desk (.openFile fileName)) :
    Serves fs srv os.maxBytes desk d (.openFile fileName)
      ((DriveCall.openFile fileName).run (fs.connected srv os) desk) := by
  rcases m.fetches fs (hs.sent _ rfl) with ⟨p, attr, n, hp, hn, hdepicts, hfetch, -⟩ |
    ⟨hnone, e, w', hfetch, hnet, hcontexts⟩
  · have hact : d.act os.maxBytes (DriveCall.openFile fileName).op
        = (some (.node n), d.opened d.tree ⟨p, n.kind, false⟩) := by
      refine (congrArg (d.act os.maxBytes) (DriveCall.opOn_of_some hp)).trans ?_
      simp only [Drive.act, hn]
    have hopen : (fs.connected srv os).openFile fileName desk.world
        = ((fun info => (fs.newContext (ntPathToRelative fileName) attr.kind, info)) <$>
            checked (fillFileInfo attr)) desk.world := by
      unfold RpcFsContext.openFile
      rw [bind_of_ok hfetch, ← bind_pure_comp]
      rfl
    exact .of_opened m hs rfl hopen hdepicts hact m.plain rfl ⟨hp, hdepicts.kind, rfl⟩
  · have hact : d.act os.maxBytes (DriveCall.openFile fileName).op = (none, d) := by
      cases hp : namesOf (ntPathToRelative fileName) with
      | none => exact congrArg (d.act os.maxBytes) (DriveCall.opOn_of_none hp)
      | some p =>
        refine (congrArg (d.act os.maxBytes) (DriveCall.opOn_of_some hp)).trans ?_
        simp only [Drive.act, hnone p hp]
    refine .of_error m (inside_of_error (bind_of_error hfetch)) hact (.inl rfl) ?_ hcontexts
    rw [hnet]
    exact m.plain

/-- A handle is opened on a new node. -/
theorem serves_create (m : Presents srv desk d) {fileName : List UInt16}
    {createOptions fileAttributes : UInt32} {allocationSize : UInt64}
    (hs : Supported fs srv os desk (.create fileName createOptions fileAttributes allocationSize)) :
    Serves fs srv os.maxBytes desk d (.create fileName createOptions fileAttributes allocationSize)
      ((DriveCall.create fileName createOptions fileAttributes allocationSize).run
        (fs.connected srv os) desk) := by
  have hsent := hs.sent _ rfl
  have hcreate : (fs.connected srv os).create fileName createOptions fileAttributes allocationSize
      desk.world = ((fs.connected srv os).sendDirect (.create (ntPathToRelative fileName)
        (if createOptions &&& fileDirectoryFileFlag ≠ 0 then .directory else .file)
        fileAttributes allocationSize) >>= _) desk.world := rfl
  have hop : (DriveCall.create fileName createOptions fileAttributes allocationSize).op
      = DriveCall.opOn (ntPathToRelative fileName) fun p => .create p
        (if createOptions &&& fileDirectoryFileFlag ≠ 0 then EntryKind.directory else .file).kind :=
    congrArg (DriveCall.opOn _) (funext fun p => congrArg (Op.create p) (by split <;> rfl))
  generalize (if createOptions &&& fileDirectoryFileFlag ≠ 0 then EntryKind.directory else .file)
    = entry at hsent hcreate hop
  obtain ⟨t', hplain, -, hresult⟩ := m.sends fs hsent
  cases hp : namesOf (ntPathToRelative fileName) with
  | none =>
    have hact := congrArg (d.act os.maxBytes) (hop.trans (DriveCall.opOn_of_none hp))
    rw [show (Request.create (ntPathToRelative fileName) entry fileAttributes
      allocationSize).command = .invalid from onPath_of_none hp] at hplain hresult
    rcases hresult with ⟨response, -, hconveys⟩ | ⟨e, hsend, -⟩
    · cases hconveys
    · exact .of_error m (inside_of_error (hcreate.trans (bind_of_error hsend))) hact (.inl rfl)
        hplain rfl
  | some p =>
    have hact := congrArg (d.act os.maxBytes) (hop.trans (DriveCall.opOn_of_some hp))
    rw [show (Request.create (ntPathToRelative fileName) entry fileAttributes
      allocationSize).command = .make p entry.kind from onPath_of_some hp] at hplain hresult
    rcases d.act_create os.maxBytes p entry.kind with
      ⟨hrun, hdrive⟩ | ⟨T, hrun, hdrive⟩
    · rw [hrun] at hplain hresult
      rcases hresult with ⟨response, -, hconveys⟩ | ⟨e, hsend, -⟩
      · cases hconveys
      · exact .of_error m (inside_of_error (hcreate.trans (bind_of_error hsend)))
          (hact.trans hdrive) (.inl rfl) hplain rfl
    · rw [hrun] at hplain hresult
      rcases hresult with ⟨response, hsend, hconveys⟩ | ⟨e, -, hrefused⟩
      · cases hconveys with
        | @node attr _ hdepicts =>
          have hfill : (fs.connected srv os).create fileName createOptions fileAttributes
              allocationSize desk.world
              = ((fun info => (fs.newContext (ntPathToRelative fileName) attr.kind, info)) <$>
                  checked (fillFileInfo attr)) { desk.world with net := t' } := by
            rw [hcreate, bind_of_ok hsend, ← bind_pure_comp]
            rfl
          exact .of_opened m hs rfl hfill hdepicts (hact.trans hdrive) hplain rfl
            ⟨hp, hdepicts.kind.trans entry.kind.kind_blank, rfl⟩
      · cases hrefused.resolve_right id

/-- A handle gets another path when what it stands for is renamed through it. -/
theorem serves_rename (m : Presents srv desk d) (hx : d.handle i = some x)
    {newFileName : List UInt16} {replace : Bool}
    (hs : Supported fs srv os desk (.rename i newFileName replace)) :
    Serves fs srv os.maxBytes desk d (.rename i newFileName replace)
      ((DriveCall.rename i newFileName replace).run (fs.connected srv os) desk) := by
  have hh := m.handles i x hx
  have hrename := (fs.connected srv os).rename_apply i newFileName replace desk.world
  obtain ⟨t', hplain, -, hresult⟩ := m.sends fs (hs.sent _ rfl)
  have hcommand : (Request.rename (desk.world.contexts i).path (ntPathToRelative newFileName)
      replace).command = onPath (ntPathToRelative newFileName) fun dst =>
        .rename x.path dst replace := onPath_of_some hh.path
  rw [hcommand] at hplain hresult
  cases hp : namesOf (ntPathToRelative newFileName) with
  | none =>
    have hact : d.act os.maxBytes (DriveCall.rename i newFileName replace).op = (none, d) :=
      congrArg (d.act os.maxBytes) (DriveCall.opOn_of_none hp)
    rw [onPath_of_none hp] at hplain hresult
    rcases hresult with ⟨response, -, hconveys⟩ | ⟨e, hsend, -⟩
    · cases hconveys
    · exact .of_error m (inside_of_error (hrename.trans (bind_of_error hsend))) hact (.inl rfl)
        hplain rfl
  | some dst =>
    have hact : d.act os.maxBytes (DriveCall.rename i newFileName replace).op
        = d.acts i x (.rename dst replace) (d.tree.run os.maxBytes (.rename x.path dst replace)) :=
      (congrArg (d.act os.maxBytes) (DriveCall.opOn_of_some hp)).trans (Drive.act_through hx rfl)
    rw [onPath_of_some hp] at hplain hresult
    by_cases hmovable : d.tree.Renamable x.path dst replace
    · have hrun : d.tree.run os.maxBytes (.rename x.path dst replace)
          = (some .done, d.tree.move x.path dst) := if_pos hmovable
      rw [hrun] at hact hplain hresult
      rcases hresult with ⟨response, hsend, -⟩ | ⟨e, -, hrefused⟩
      · exact .of_changed m hx (inside_of_ok (hrename.trans (bind_of_ok hsend))) hact .done hplain
          rfl ⟨hp, hh.kind, hh.pending⟩
      · cases hrefused.resolve_right id
    · have hrun : d.tree.run os.maxBytes (.rename x.path dst replace) = (none, d.tree) :=
        if_neg hmovable
      rw [hrun] at hact hplain hresult
      rcases hresult with ⟨response, -, hconveys⟩ | ⟨e, hsend, -⟩
      · cases hconveys
      · exact .of_error m (inside_of_error (hrename.trans (bind_of_error hsend))) hact (.inl rfl)
          hplain rfl

/-- What a handle stands for is to be removed, or is not, once it is cleaned up. -/
theorem serves_setDelete (m : Presents srv desk d) (hx : d.handle i = some x) {delete : Bool}
    (hs : Supported fs srv os desk (.setDelete i delete)) :
    Serves fs srv os.maxBytes desk d (.setDelete i delete)
      ((DriveCall.setDelete i delete).run (fs.connected srv os) desk) := by
  have hh := m.handles i x hx
  cases delete with
  | false =>
    have hact : d.act os.maxBytes (DriveCall.setDelete i false).op
        = d.acts i x (.setPending false) (some .done, d.tree) := Drive.act_alone hx rfl
    have hrun : (DriveCall.setDelete i false).run (fs.connected srv os) desk
        = .ok .done { desk with world :=
            desk.world.setContext i { desk.world.contexts i with deletePending := false } } := rfl
    exact .of_changed m hx hrun hact .done m.plain rfl ⟨hh.path, hh.kind, rfl⟩
  | true =>
    have hset := (fs.connected srv os).setDelete_apply i desk.world
    have hact : d.act os.maxBytes (DriveCall.setDelete i true).op
        = d.acts i x (.setPending true) (d.tree.run os.maxBytes (.mayRemove x.path x.kind)) :=
      Drive.act_through hx rfl
    have hcommand : (Request.canDelete (desk.world.contexts i).path
        (desk.world.contexts i).kind).command = .mayRemove x.path x.kind :=
      (onPath_of_some hh.path).trans (congrArg (Command.mayRemove x.path) hh.kind)
    have hquiet : Quiet (srv.dispatch os (.canDelete (desk.world.contexts i).path
        (desk.world.contexts i).kind)) := .bind (quiet_canDelete _) fun _ => .pure _
    have hresult := m.sends_quiet fs hquiet (hs.sent _ rfl)
    rw [hcommand] at hresult
    by_cases hremovable : d.tree.Removable x.path x.kind
    · have hrun : d.tree.run os.maxBytes (.mayRemove x.path x.kind) = (some .done, d.tree) :=
        congrArg (·, d.tree) (if_pos hremovable)
      rw [hrun] at hact hresult
      rcases hresult with ⟨response, hsend, -⟩ | ⟨e, -, hrefused⟩
      · exact .of_changed m hx (inside_of_ok (hset.trans (bind_of_ok hsend))) hact .done m.plain
          rfl ⟨hh.path, hh.kind, rfl⟩
      · cases hrefused.resolve_right id
    · have hrun : d.tree.run os.maxBytes (.mayRemove x.path x.kind) = (none, d.tree) :=
        congrArg (·, d.tree) (if_neg hremovable)
      rw [hrun] at hact hresult
      rcases hresult with ⟨response, -, hconveys⟩ | ⟨e, hsend, -⟩
      · cases hconveys
      · exact .of_error m (inside_of_error (hset.trans (bind_of_error hsend))) hact (.inl rfl)
          m.plain rfl

/-! ### The end of a handle -/

/-- A handle is cleaned up, whether or not the removal succeeds. -/
theorem serves_cleanup (m : Presents srv desk d) (hx : d.handle i = some x) {flags : UInt32}
    (hs : Supported fs srv os desk (.cleanup i flags)) :
    Serves fs srv os.maxBytes desk d (.cleanup i flags)
      ((DriveCall.cleanup i flags).run (fs.connected srv os) desk) := by
  have hh := m.handles i x hx
  have hdelete : RpcFsContext.shouldDelete (desk.world.contexts i) flags = true ↔
      x.pending = true ∨ RpcFsContext.cleanupDelete flags = true := by
    unfold RpcFsContext.shouldDelete
    rw [hh.pending, decide_eq_true_eq]
  by_cases hremove : x.pending = true ∨ RpcFsContext.cleanupDelete flags = true
  · have hact := Drive.act_keep os.maxBytes (.cleanup (RpcFsContext.cleanupDelete flags)) _ hx
      (if_pos hremove) rfl
    have hcommand : (RpcFsContext.removeRequest (desk.world.contexts i)).command
        = .remove x.path x.kind := by
      unfold RpcFsContext.removeRequest
      rw [← hh.kind]
      cases (desk.world.contexts i).kind <;> exact onPath_of_some hh.path
    obtain ⟨t', hplain, -, hresult⟩ := m.sends fs (hs.sent _ ⟨hdelete.mpr hremove, rfl⟩)
    rw [hcommand] at hplain
    have hfinal : final ((fs.connected srv os).sendDirect
        (RpcFsContext.removeRequest (desk.world.contexts i)) desk.world)
        = { desk.world with net := t' } := by
      rcases hresult with ⟨response, hsend, -⟩ | ⟨e, hsend, -⟩
      · rw [hsend]
        rfl
      · rw [hsend]
        rfl
    have hclean : (fs.connected srv os).cleanup i flags desk.world
        = .ok () { desk.world with net := t' } := by
      rw [← hfinal]
      exact if_pos (hdelete.mpr hremove)
    exact .of_ok m (inside_of_ok hclean) hact .done hplain rfl
  · have hcommand : x.command d.tree (.cleanup (RpcFsContext.cleanupDelete flags)) = none :=
      if_neg hremove
    have hact : d.act os.maxBytes (DriveCall.cleanup i flags).op = (some .done, d) :=
      (Drive.act_alone hx hcommand).trans (Drive.acts_keep hx rfl)
    have hclean : (fs.connected srv os).cleanup i flags desk.world = .ok () desk.world :=
      if_neg fun h => hremove (hdelete.mp h)
    exact .of_ok m (inside_of_ok hclean) hact .done m.plain rfl

/-- A handle is closed. -/
theorem serves_close (m : Presents srv desk d) (hx : d.handle i = some x) :
    Serves fs srv os.maxBytes desk d (.close i)
      ((DriveCall.close i).run (fs.connected srv os) desk) := by
  have hact : d.act os.maxBytes (DriveCall.close i).op
      = (some .done, { d with handle := Function.update d.handle i none }) :=
    Drive.act_alone hx rfl
  refine ⟨?_, ?_⟩
  · rw [hact]
    exact .given .done
  · rw [hact]
    exact {
      plain := m.plain
      next := m.next
      isOpen := fun j => by
        show Function.update desk.isOpen i false j = (Function.update d.handle i none j).isSome
        rcases eq_or_ne j i with rfl | hj
        · rw [Function.update_self, Function.update_self]
          rfl
        · rw [Function.update_of_ne hj, Function.update_of_ne hj, m.isOpen]
      handles := fun j y hy => by
        change Function.update d.handle i none j = some y at hy
        rcases eq_or_ne j i with rfl | hj
        · rw [Function.update_self] at hy
          cases hy
        · rw [Function.update_of_ne hj] at hy
          exact m.handles j y hy }

/-! ### Any call -/

/-- **One callback** does what its operation does. -/
theorem Supported.serves (m : Presents srv desk d) {call : DriveCall}
    (hs : Supported fs srv os desk call) :
    Serves fs srv os.maxBytes desk d call (call.run (fs.connected srv os) desk) := by
  have hopen : ∀ i, call.handle = some i → ∃ x, d.handle i = some x := fun i hi => by
    have hsome := hs.isOpen i hi
    rw [m.isOpen] at hsome
    exact Option.isSome_iff_exists.mp hsome
  cases call with
  | getSecurityByName fileName securityDescriptor => exact serves_getSecurityByName m hs
  | openFile fileName => exact serves_openFile m hs
  | create fileName createOptions fileAttributes allocationSize => exact serves_create m hs
  | flushVolume => exact serves_flushVolume m hs
  | getVolumeInfo => exact serves_getVolumeInfo m hs
  | cleanup handle flags =>
    obtain ⟨x, hx⟩ := hopen handle rfl
    exact serves_cleanup m hx hs
  | close handle =>
    obtain ⟨x, hx⟩ := hopen handle rfl
    exact serves_close m hx
  | flush handle =>
    obtain ⟨x, hx⟩ := hopen handle rfl
    exact serves_flush m hx hs
  | getFileInfo handle =>
    obtain ⟨x, hx⟩ := hopen handle rfl
    exact serves_getFileInfo m hx hs
  | readDirectory handle marker buffer =>
    obtain ⟨x, hx⟩ := hopen handle rfl
    exact serves_readDirectory m hx hs
  | rename handle newFileName replaceIfExists =>
    obtain ⟨x, hx⟩ := hopen handle rfl
    exact serves_rename m hx hs
  | setBasicInfo handle fileAttributes creationTime lastAccessTime lastWriteTime changeTime =>
    obtain ⟨x, hx⟩ := hopen handle rfl
    exact serves_setBasicInfo m hx hs
  | setDelete handle deleteFile =>
    obtain ⟨x, hx⟩ := hopen handle rfl
    exact serves_setDelete m hx hs
  | setFileSize handle newSize setAllocationSize =>
    obtain ⟨x, hx⟩ := hopen handle rfl
    exact serves_setFileSize m hx hs
  | read handle buffer offset =>
    obtain ⟨x, hx⟩ := hopen handle rfl
    exact serves_read m hx hs
  | write handle buffer offset writeToEof constrainedIo =>
    obtain ⟨x, hx⟩ := hopen handle rfl
    cases constrainedIo with
    | false => exact serves_write m hx hs
    | true => exact serves_overwrite m hx hs

/-! ### Runs -/

/-- What a call has returned, with the client before it. -/
structure Report (Buf : Type) where
  call   : Os × DriveCall
  before : World Tree Buf
  result : Except Stop Value

namespace Desk

/-- No handle has been opened yet. -/
def fresh (w : World Tree Buf) : Desk Buf where
  world    := w
  isOpen _ := false
  next     := 0

/-- What is left of the client and the tree by a call, over the system of its time. -/
def step (fs : RpcFsContext Tree Buf) (srv : RpcServer) (desk : Desk Buf)
    (call : Os × DriveCall) : Desk Buf := final (call.2.run (fs.connected srv call.1) desk)

/-- Calls that are made one after another, with what they return. -/
def reports (fs : RpcFsContext Tree Buf) (srv : RpcServer) :
    Desk Buf → List (Os × DriveCall) → List (Report Buf)
  | _, []              => []
  | desk, call :: rest =>
    ⟨call, desk.world, outcome (call.2.run (fs.connected srv call.1) desk)⟩ ::
      reports fs srv (desk.step fs srv call) rest

/-- What they leave. -/
def after (fs : RpcFsContext Tree Buf) (srv : RpcServer) (desk : Desk Buf)
    (calls : List (Os × DriveCall)) : Desk Buf := calls.foldl (step fs srv) desk

/-- Every call of the run is supported where it comes. -/
def AllSupported (fs : RpcFsContext Tree Buf) (srv : RpcServer) :
    Desk Buf → List (Os × DriveCall) → Prop
  | _, []              => True
  | desk, call :: rest =>
    Supported fs srv call.1 desk call.2 ∧ AllSupported fs srv (desk.step fs srv call) rest

end Desk

/-- The operation that a call stands for, with the size limit of its time. -/
def asOp (call : Os × DriveCall) : Nat × Op Name UInt8 := (call.1.maxBytes, call.2.op)

/-- What a call has returned tells what its operation was answered. -/
def Reported (fs : RpcFsContext Tree Buf) (report : Report Buf)
    (answer : (Os × DriveCall) × Option (Answer Name UInt8)) : Prop :=
  report.call = answer.1 ∧ Told fs report.before report.call.2 report.result answer.2

/-- In every run of calls that are supported the drive is the one that it was, and what the calls
    return tells its answers. -/
theorem Presents.reported (m : Presents srv desk d) {calls : List (Os × DriveCall)}
    (hsupported : desk.AllSupported fs srv calls) :
    List.Forall₂ (Reported fs) (desk.reports fs srv calls) (d.trace asOp calls) ∧
      Presents srv (desk.after fs srv calls) (d.after asOp calls) := by
  induction calls generalizing desk d with
  | nil => exact ⟨.nil, m⟩
  | cons call calls ih =>
    obtain ⟨hfirst, hrest⟩ := hsupported
    have hserves := hfirst.serves m
    obtain ⟨htold, hafter⟩ := ih hserves.presents hrest
    exact ⟨.cons ⟨rfl, hserves.told⟩ htold, hafter⟩

/-- **What is mounted is a drive.**  Where the exported directory holds only files and
    directories, every run of callbacks that begins without handles returns what a drive answers
    to the operations they stand for, and leaves the tree and the handles that it has: what is
    opened, renamed, written or removed through one handle is what is seen through all others. -/
theorem drive_refines (fs : RpcFsContext Tree Buf) (srv : RpcServer) (w : World Tree Buf)
    (calls : List (Os × DriveCall)) (h : srv.Plain w.net)
    (hsupported : (Desk.fresh w).AllSupported fs srv calls) :
    List.Forall₂ (Reported fs) ((Desk.fresh w).reports fs srv calls)
        ((Drive.fresh h.view).trace asOp calls) ∧
      Presents srv ((Desk.fresh w).after fs srv calls) ((Drive.fresh h.view).after asOp calls) := by
  have m : Presents srv (Desk.fresh w) (Drive.fresh h.view) := {
    plain   := ⟨h, rfl⟩
    next    := rfl
    isOpen  := fun _ => rfl
    handles := fun _ _ hx => by cases hx }
  exact m.reported hsupported

/-- A client without handles, and `f` in the exported `/r`. -/
def idleOnFile : World Tree Unit where
  net := treeWithFile
  mountState := {}
  contexts _ := plainFs.newContext "" .file

/-- A byte is written through a handle on `f`, which is then renamed to `g` and closed. -/
def openAndMove : List (Os × DriveCall) :=
  [(.atTime ⟨1, 0⟩, .openFile [92, 102]), (.atTime ⟨2, 0⟩, .write 0 [4] 0 true false),
    (.atTime ⟨3, 0⟩, .rename 0 [92, 103] false), (.atTime ⟨4, 0⟩, .close 0)]

/-- A file is opened, written to and moved, and the drive shows it. -/
theorem drive_refines_openAndMove :
    List.Forall₂ (Reported plainFs) ((Desk.fresh idleOnFile).reports plainFs serverAtR openAndMove)
        ((Drive.fresh treeWithFile_plain.view).trace asOp openAndMove) ∧
      Presents serverAtR ((Desk.fresh idleOnFile).after plainFs serverAtR openAndMove)
        ((Drive.fresh treeWithFile_plain.view).after asOp openAndMove) := by
  have hcareful : serverAtR.Careful treeWithFile [(.atTime ⟨1, 0⟩, .stat "f"),
      (.atTime ⟨2, 0⟩, .write "f" 0 [4] true), (.atTime ⟨3, 0⟩, .rename "f" "g" false)] :=
    careful_of_mild treeWithFile_plain rfl (by simp [Mild])
  obtain ⟨hopen, hwrite, hmove, -⟩ := hcareful
  refine drive_refines _ _ idleOnFile _ treeWithFile_plain
    ⟨⟨?_, ?_, trivial, ?_⟩, ⟨?_, ?_, trivial, ?_⟩, ⟨?_, ?_, trivial, ?_⟩,
      ⟨?_, ?_, trivial, ?_⟩, trivial⟩
  · rintro _ ⟨⟩
  · rintro _ rfl
    exact ⟨hopen, by decide⟩
  · rintro _ ⟨⟩
  · rintro _ ⟨⟩
    rfl
  · rintro _ rfl
    exact ⟨hwrite, by decide⟩
  · rintro _ ⟨⟩
  · rintro _ ⟨⟩
    rfl
  · rintro _ rfl
    exact ⟨hmove, by decide⟩
  · rintro _ ⟨⟩
  · rintro _ ⟨⟩
    rfl
  · rintro _ ⟨⟩
  · rintro _ ⟨⟩

end Netfilum
