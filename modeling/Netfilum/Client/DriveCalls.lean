import Netfilum.Client.Drive

namespace Netfilum

open FileTree Posix Program RpcServer Rust

/-!
# The callbacks are operations on the drive

One lemma for each callback that leaves the handles as they are.

* `serves_getFileInfo`, `serves_flush`, `serves_flushVolume`, `serves_getSecurityByName`,
  `serves_getVolumeInfo`, `serves_read`, `serves_readDirectory` — what a question returns is
  what the drive answers.
* `serves_setBasicInfo`, `serves_setFileSize`, `serves_write`, `serves_overwrite` — a change is
  the one that the drive makes.
-/

variable {Buf : Type} {fs : RpcFsContext Tree Buf} {srv : RpcServer} {os : Os} {desk : Desk Buf}
  {d : Drive Name UInt8} {i : Nat} {x : Handle Name}

/-! ### Questions -/

/-- The tree is asked for what stands at the path of a handle. -/
theorem act_look (d : Drive Name UInt8) (hx : d.handle i = some x) (limit : Nat) :
    d.act limit (.through i .look) = ((d.tree.node x.path).map .node, d) :=
  Drive.act_keep limit .look (.look x.path) hx rfl rfl

/-- The attributes of what a handle stands for. -/
theorem serves_getFileInfo (m : Presents srv desk d) (hx : d.handle i = some x)
    (hs : Supported fs srv os desk (.getFileInfo i)) :
    Serves fs srv os.maxBytes desk d (.getFileInfo i)
      ((DriveCall.getFileInfo i).run (fs.connected srv os) desk) := by
  have hh := m.handles i x hx
  have hact := act_look d hx os.maxBytes
  have hget : (fs.connected srv os).getFileInfo i desk.world
      = ((fs.connected srv os).fetchAttr (desk.world.contexts i).path >>= fun attr =>
          checked (fillFileInfo attr)) desk.world := by
    unfold RpcFsContext.getFileInfo
    rw [bind_of_ok (pathOf_apply i _)]
  rcases m.fetches fs (hs.sent _ rfl) with ⟨p, attr, n, hp, hn, hdepicts, hfetch, -⟩ |
    ⟨hnone, e, w', hfetch, hnet, hcontexts⟩
  · rw [hh.path] at hp
    cases hp
    rw [hn] at hact
    refine .of_filled m hs rfl (f := id) (k := .info) ?_ hdepicts hact (fun _ => .info) m.plain rfl
    rw [hget, bind_of_ok hfetch, id_map]
  · rw [hnone _ hh.path] at hact
    refine .of_error m (inside_of_error (hget.trans (bind_of_error hfetch))) hact (.inl rfl) ?_
      hcontexts
    rw [hnet]
    exact m.plain

/-- A flush of a handle, which asks for its attributes afterwards. -/
theorem serves_flush (m : Presents srv desk d) (hx : d.handle i = some x)
    (hs : Supported fs srv os desk (.flush i)) :
    Serves fs srv os.maxBytes desk d (.flush i)
      ((DriveCall.flush i).run (fs.connected srv os) desk) := by
  have hh := m.handles i x hx
  have hact := act_look d hx os.maxBytes
  have hquiet : Quiet (srv.dispatch os (.flush (some (desk.world.contexts i).path))) :=
    .bind (quiet_flush _) fun _ => .pure _
  have hflush : (fs.connected srv os).flush (some i) desk.world
      = ((fs.connected srv os).sendDirect (.flush (some (desk.world.contexts i).path)) >>=
          fun _ => do
            let path ← pathOf i
            let attr ← (fs.connected srv os).fetchAttr path
            let fileInfo ← checked (fillFileInfo attr)
            return some fileInfo) desk.world := bind_of_ok (pathOf_apply i desk.world)
  rcases m.sends_quiet fs hquiet (hs.sent _ (.inl rfl)) with ⟨response, hsend, -⟩ |
    ⟨e, hsend, hrefused⟩
  · rw [bind_of_ok hsend, bind_of_ok (pathOf_apply i _)] at hflush
    rcases m.fetches fs (hs.sent _ (.inr rfl)) with ⟨p, attr, n, hp, hn, hdepicts, hfetch, -⟩ |
      ⟨hnone, e, w', hfetch, hnet, hcontexts⟩
    · rw [hh.path] at hp
      cases hp
      rw [hn] at hact
      refine .of_filled m hs rfl (f := some) (k := fun info => (info.map .info).getD .done) ?_
        hdepicts hact (fun _ => .info) m.plain rfl
      rw [hflush, bind_of_ok hfetch, bind_pure_comp]
    · rw [hnone _ hh.path] at hact
      refine .of_error m (inside_of_error (hflush.trans (bind_of_error hfetch))) hact (.inl rfl) ?_
        hcontexts
      rw [hnet]
      exact m.plain
  · rw [show (Request.flush (some (desk.world.contexts i).path)).command = .check x.path from
      onPath_of_some hh.path] at hrefused
    rw [Option.map_eq_none_iff.mp (hrefused.resolve_right id)] at hact
    exact .of_error m (inside_of_error (hflush.trans (bind_of_error hsend))) hact (.inl rfl)
      m.plain rfl

/-- A flush of the volume. -/
theorem serves_flushVolume (m : Presents srv desk d) (hs : Supported fs srv os desk .flushVolume) :
    Serves fs srv os.maxBytes desk d .flushVolume
      (DriveCall.flushVolume.run (fs.connected srv os) desk) := by
  have hact : d.act os.maxBytes DriveCall.flushVolume.op = (some .done, d) := by
    show ((d.tree.node []).map (fun _ => Answer.done), d) = _
    rw [d.tree.root]
    rfl
  have hquiet : Quiet (srv.dispatch os (.flush none)) := .bind (quiet_flush _) fun _ => .pure _
  rcases m.sends_quiet fs hquiet (hs.sent _ rfl) with ⟨response, hsend, -⟩ | ⟨e, hsend, hrefused⟩
  · exact .of_ok m (inside_of_ok (bind_of_ok hsend)) hact .done m.plain rfl
  · have hnone : (d.tree.node []).map (fun _ => Answer.done) = none := hrefused.resolve_right id
    rw [d.tree.root] at hnone
    cases hnone

/-- The attributes of what stands at a path. -/
theorem serves_getSecurityByName (m : Presents srv desk d) {fileName : List UInt16}
    {descriptor : Option (List UInt8)}
    (hs : Supported fs srv os desk (.getSecurityByName fileName descriptor)) :
    Serves fs srv os.maxBytes desk d (.getSecurityByName fileName descriptor)
      ((DriveCall.getSecurityByName fileName descriptor).run (fs.connected srv os) desk) := by
  rcases m.fetches fs (hs.sent _ rfl) with ⟨p, attr, n, hp, hn, hdepicts, hfetch, -⟩ |
    ⟨hnone, e, w', hfetch, hnet, hcontexts⟩
  · have hact : d.act os.maxBytes (DriveCall.getSecurityByName fileName descriptor).op
        = (some (.node n), d) := by
      refine (congrArg (d.act os.maxBytes) (DriveCall.opOn_of_some hp)).trans ?_
      show ((d.tree.node p).map Answer.node, d) = _
      rw [hn]
      rfl
    exact .of_ok m (inside_of_ok (bind_of_ok hfetch)) hact
      (.security (displaysKind_attributes hdepicts)) m.plain rfl
  · have hact : d.act os.maxBytes (DriveCall.getSecurityByName fileName descriptor).op
        = (none, d) := by
      cases hp : namesOf (ntPathToRelative fileName) with
      | none => exact congrArg (d.act os.maxBytes) (DriveCall.opOn_of_none hp)
      | some p =>
        refine (congrArg (d.act os.maxBytes) (DriveCall.opOn_of_some hp)).trans ?_
        show ((d.tree.node p).map Answer.node, d) = _
        rw [hnone p hp]
        rfl
    refine .of_error m (inside_of_error (bind_of_error hfetch)) hact (.inl rfl) ?_ hcontexts
    rw [hnet]
    exact m.plain

/-- The figures of the volume. -/
theorem serves_getVolumeInfo (m : Presents srv desk d)
    (hs : Supported fs srv os desk .getVolumeInfo) :
    Serves fs srv os.maxBytes desk d .getVolumeInfo
      (DriveCall.getVolumeInfo.run (fs.connected srv os) desk) := by
  have hact : d.act os.maxBytes DriveCall.getVolumeInfo.op = (some .done, d) := rfl
  have hquiet : Quiet (srv.dispatch os .getVolumeInfo) := .map quiet_volumeInfo
  rcases m.sends_quiet fs hquiet (hs.sent _ rfl) with ⟨response, hsend, hconveys⟩ |
    ⟨e, hsend, -⟩
  · change Conveys (.ok response) (some .done) at hconveys
    cases hconveys with
    | volume info => exact .of_ok m (inside_of_ok (bind_of_ok hsend)) hact (.volume _) m.plain rfl
    | done =>
      exact .of_error m (inside_of_error (bind_of_ok hsend)) hact (.inr trivial) m.plain rfl
  · exact .of_error m (inside_of_error (bind_of_error hsend)) hact (.inr trivial) m.plain rfl

/-- A read fills the front of its buffer. -/
theorem serves_read (m : Presents srv desk d) (hx : d.handle i = some x) {buffer : List UInt8}
    {offset : UInt64} (hs : Supported fs srv os desk (.read i buffer offset)) :
    Serves fs srv os.maxBytes desk d (.read i buffer offset)
      ((DriveCall.read i buffer offset).run (fs.connected srv os) desk) := by
  have hh := m.handles i x hx
  have hlength : (UInt32.ofNat buffer.length).toNat = buffer.length :=
    UInt32.toNat_ofNat_of_lt' hs.short
  have hact : d.act os.maxBytes (DriveCall.read i buffer offset).op
      = ((d.tree.run os.maxBytes (.read x.path offset.toNat buffer.length)).1, d) :=
    Drive.act_keep _ (.read offset.toNat buffer.length) (.read x.path offset.toNat buffer.length)
      hx rfl rfl
  have hcommand : (Request.read (desk.world.contexts i).path offset
      (UInt32.ofNat buffer.length)).command = .read x.path offset.toNat buffer.length := by
    show onPath _ (fun p => Command.read p offset.toNat (UInt32.ofNat buffer.length).toNat) = _
    rw [onPath_of_some hh.path, hlength]
  have hquiet : Quiet (srv.dispatch os (.read (desk.world.contexts i).path offset
      (UInt32.ofNat buffer.length))) := .map (quiet_readFile _ _)
  have hread : (fs.connected srv os).read i buffer offset desk.world
      = ((fs.connected srv os).sendDirect (.read (desk.world.contexts i).path offset
          (UInt32.ofNat buffer.length)) >>= _) desk.world := bind_of_ok (pathOf_apply i desk.world)
  have hsent := m.sends_quiet fs hquiet (hs.sent _ rfl)
  rw [hcommand] at hsent
  rcases hsent with ⟨response, hsend, hconveys⟩ | ⟨e, hsend, hrefused⟩
  · cases hanswer : (d.tree.run os.maxBytes (.read x.path offset.toNat buffer.length)).1 with
    | none => rw [hanswer] at hconveys; cases hconveys
    | some answer =>
      rw [hanswer] at hact
      -- no more is answered than was asked for
      obtain ⟨data, rfl, hshort⟩ : ∃ data, answer = .bytes data ∧ data.length ≤ buffer.length := by
        obtain ⟨-, hread⟩ := Option.ite_none_right_eq_some.mp hanswer
        obtain ⟨data, -, rfl⟩ := Option.map_eq_some_iff.mp hread
        exact ⟨_, rfl, List.length_take_le _ _⟩
      rw [hanswer] at hconveys
      cases hconveys
      have hok : (fs.connected srv os).read i buffer offset desk.world
          = .ok (data ++ buffer.drop data.length, UInt32.ofNat data.length) desk.world := by
        rw [hread, bind_of_ok hsend]
        dsimp only
        rw [if_neg (Nat.not_lt.mpr hshort)]
        rfl
      exact .of_ok m (inside_of_ok hok) hact (.bytes data hshort) m.plain rfl
  · exact .of_error m (inside_of_error (hread.trans (bind_of_error hsend))) hact
      (.inl (hrefused.resolve_right id)) m.plain rfl

/-- The entries of a directory go to the buffers of WinFsp. -/
theorem serves_readDirectory (m : Presents srv desk d) (hx : d.handle i = some x)
    {marker : Option (List UInt16)} {buffer : List UInt8}
    (hs : Supported fs srv os desk (.readDirectory i marker buffer)) :
    Serves fs srv os.maxBytes desk d (.readDirectory i marker buffer)
      ((DriveCall.readDirectory i marker buffer).run (fs.connected srv os) desk) := by
  have hh := m.handles i x hx
  have hact : d.act os.maxBytes (DriveCall.readDirectory i marker buffer).op
      = ((d.tree.run os.maxBytes (.list x.path)).1, d) :=
    Drive.act_keep _ .list (.list x.path) hx rfl rfl
  have hread : (fs.connected srv os).readDirectory i marker buffer desk.world
      = ((fs.connected srv os).fetchAttr (desk.world.contexts i).path >>= fun attr => do
          let entries ← (fs.connected srv os).fetchDirEntries (desk.world.contexts i).path
          fs.presentEntries i marker buffer attr entries) desk.world := by
    simp only [← RpcFsContext.presentEntries_connected fs srv os]
    exact bind_of_ok (pathOf_apply i desk.world)
  have hrefused : d.tree.node x.path ≠ some .dir →
      d.act os.maxBytes (DriveCall.readDirectory i marker buffer).op = (none, d) := fun hno =>
    hact.trans (congrArg (·, d) (if_neg hno))
  rcases m.fetches fs (hs.sent _ (.inl rfl)) with ⟨p, attr, n, hp, hn, hdepicts, hfetch, -⟩ |
    ⟨hnone, e, w', hfetch, hnet, hcontexts⟩
  · rw [hh.path] at hp
    cases hp
    rw [bind_of_ok hfetch] at hread
    rcases m.lists fs hh.path (hs.sent _ (.inr rfl)) with ⟨entries, hdir, hentries, hlist⟩ |
      ⟨hno, e, w', hlist, hnet, hcontexts⟩
    · rw [hn] at hdir
      cases hdir
      rw [bind_of_ok hlist] at hread
      have hanswer : d.act os.maxBytes (DriveCall.readDirectory i marker buffer).op
          = (some (.children fun x' => d.tree.node (x.path ++ [x'])), d) :=
        hact.trans (congrArg (·, d) (if_pos hn))
      refine ⟨?_, ?_⟩
      · rw [hanswer]
        have htold : Told fs desk.world (.readDirectory i marker buffer) _ _ :=
          .listed hdepicts hentries
        rw [← hread] at htold
        exact (outcome_inside _ _ _).symm ▸ htold
      · rw [hanswer]
        refine (final_inside _ _ _).symm ▸ m.goes ?_ fun j y hy => ?_
        · rw [hread]
          rcases fs.final_presentEntries i marker buffer attr entries desk.world with hsame |
            ⟨dirBuffer, hsame⟩
          · rw [hsame]
            exact m.plain
          · rw [hsame]
            exact m.plain
        · rw [hread]
          rcases fs.final_presentEntries i marker buffer attr entries desk.world with hsame |
            ⟨dirBuffer, hsame⟩
          · rwa [hsame]
          · rw [hsame]
            rcases eq_or_ne j i with rfl | hj
            · rw [World.contexts_setContext_self]
              exact ⟨hy.path, hy.kind, hy.pending⟩
            · rwa [World.contexts_setContext_of_ne hj]
    · refine .of_error m (inside_of_error (hread.trans (bind_of_error hlist))) (hrefused hno)
        (.inl rfl) ?_ hcontexts
      rw [hnet]
      exact m.plain
  · refine .of_error m (inside_of_error (hread.trans (bind_of_error hfetch)))
      (hrefused (by rw [hnone _ hh.path]; nofun)) (.inl rfl) ?_ hcontexts
    rw [hnet]
    exact m.plain

/-! ### Changes -/

section

variable {call : DriveCall} {action : Action Name UInt8} {c : Command Name UInt8}
  {request : Request} {y : ClientM Tree Buf FileInfo} {k : Response → ClientM Tree Buf FileInfo}

/-- A call that sends one request, and is answered with the attributes. -/
theorem serves_direct (m : Presents srv desk d) (hx : d.handle i = some x)
    (hs : Supported fs srv os desk call) (hsend : call.Sends srv desk.world request)
    (hop : call.op = .through i action) (hrequest : request.command = c)
    (hcommand : x.command d.tree action = some c) (hnext : x.next action = some x)
    (hanswer : ∀ answer, action.answer answer = answer)
    (hnode : ∀ a, (d.tree.run os.maxBytes c).1 = some a → ∃ n, a = .node n)
    (hfallible : c.Fallible → action.Fallible)
    (hcall : call.run (fs.connected srv os) desk
      = (do let info ← inside y; return Value.info info) desk)
    (hy : y desk.world = ((fs.connected srv os).sendDirect request >>= k) desk.world)
    (hk : ∀ attr, k (.attr attr) = checked (fillFileInfo attr)) :
    Serves fs srv os.maxBytes desk d call (call.run (fs.connected srv os) desk) := by
  subst hrequest
  have hact : d.act os.maxBytes call.op = _ := hop ▸ Drive.act_keep _ action _ hx hcommand hnext
  rw [hanswer] at hact
  obtain ⟨t', hplain, -, ⟨response, hok, hconveys⟩ | ⟨e, herror, hrefused⟩⟩ :=
    m.sends fs (hs.sent request hsend)
  · cases hrun : (d.tree.run os.maxBytes request.command).1 with
    | none => rw [hrun] at hconveys; cases hconveys
    | some a =>
      obtain ⟨n, rfl⟩ := hnode a hrun
      rw [hrun] at hact hconveys
      cases hconveys with
      | @node attr _ hdepicts =>
        have hfill : y desk.world
            = (id <$> checked (fillFileInfo attr)) { desk.world with net := t' } := by
          rw [hy, bind_of_ok hok, hk, id_map]
        exact .of_filled m hs hcall hfill hdepicts hact (fun _ => .info) hplain rfl
  · refine .of_error m (hcall.trans (inside_of_error (hy.trans (bind_of_error herror)))) hact
      (hrefused.imp_right fun hc => ?_) hplain rfl
    rw [hop]
    exact hfallible hc

end

/-- Attributes and times are no part of the tree. -/
theorem serves_setBasicInfo (m : Presents srv desk d) (hx : d.handle i = some x)
    {attributes : UInt32} {created accessed written changed : UInt64}
    (hs : Supported fs srv os desk (.setBasicInfo i attributes created accessed written changed)) :
    Serves fs srv os.maxBytes desk d (.setBasicInfo i attributes created accessed written changed)
      ((DriveCall.setBasicInfo i attributes created accessed written changed).run
        (fs.connected srv os) desk) := by
  refine serves_direct m hx hs rfl rfl (onPath_of_some (m.handles i x hx).path) rfl rfl
    (fun _ => rfl) (fun a ha => ?_) (fun _ => trivial) rfl
    (bind_of_ok (pathOf_apply i desk.world)) fun _ => rfl
  obtain ⟨n, -, rfl⟩ := Option.map_eq_some_iff.mp ha
  exact ⟨n, rfl⟩

/-- A change of the size, or a question for the attributes. -/
theorem serves_setFileSize (m : Presents srv desk d) (hx : d.handle i = some x) {size : UInt64}
    {allocation : Bool} (hs : Supported fs srv os desk (.setFileSize i size allocation)) :
    Serves fs srv os.maxBytes desk d (.setFileSize i size allocation)
      ((DriveCall.setFileSize i size allocation).run (fs.connected srv os) desk) := by
  have hcommand := onPath_of_some (f := fun p =>
    if allocation then .look p else .resize p size.toNat) (m.handles i x hx).path
  cases allocation with
  | true =>
    refine serves_direct m hx hs rfl rfl hcommand rfl rfl (fun _ => rfl) (fun a ha => ?_) id rfl
      (bind_of_ok (pathOf_apply i desk.world)) fun _ => rfl
    obtain ⟨n, -, rfl⟩ := Option.map_eq_some_iff.mp ha
    exact ⟨n, rfl⟩
  | false =>
    refine serves_direct m hx hs rfl rfl hcommand rfl rfl (fun _ => rfl) (fun a ha => ?_) id rfl
      (bind_of_ok (pathOf_apply i desk.world)) fun _ => rfl
    change (d.tree.run os.maxBytes (.resize x.path size.toNat)).1 = some a at ha
    exact node_of_resize ha

/-- The `Write` request of a write. -/
theorem writes (m : Presents srv desk d) (fs : RpcFsContext Tree Buf) (hx : d.handle i = some x)
    {payload : List UInt8} {offset : UInt64} {toEof : Bool}
    (hsent : srv.Covered os desk.world.net
        (.write (desk.world.contexts i).path offset payload toEof) ∧
      Answered srv os (.write (desk.world.contexts i).path offset payload toEof)
        desk.world.net) :
    ∃ t', (∃ h' : srv.Plain t', h'.view
        = (d.tree.run os.maxBytes (.write x.path (offsetOf offset toEof) payload)).2) ∧
      ((∃ attr n, (d.tree.run os.maxBytes (.write x.path (offsetOf offset toEof) payload)).1
          = some (.written payload.length n) ∧ Depicts attr n ∧
          (fs.connected srv os).writePayload i payload offset toEof desk.world
            = ((fun info => (UInt32.ofNat payload.length, some info)) <$>
                checked (fillFileInfo attr)) { desk.world with net := t' }) ∨
        (d.tree.run os.maxBytes (.write x.path (offsetOf offset toEof) payload)).1 = none ∧
          ∃ e, (fs.connected srv os).writePayload i payload offset toEof desk.world
            = .error (.err (.io e)) { desk.world with net := t' }) := by
  have hcommand : (Request.write (desk.world.contexts i).path offset payload toEof).command
      = .write x.path (offsetOf offset toEof) payload := onPath_of_some (m.handles i x hx).path
  obtain ⟨t', hplain, -, hresult⟩ := m.sends fs hsent
  rw [hcommand] at hplain hresult
  refine ⟨t', hplain, ?_⟩
  have hwrite : (fs.connected srv os).writePayload i payload offset toEof desk.world
      = ((fs.connected srv os).sendDirect
          (.write (desk.world.contexts i).path offset payload toEof) >>= _) desk.world :=
    bind_of_ok (pathOf_apply i desk.world)
  rcases hresult with ⟨response, hok, hconveys⟩ | ⟨e, herror, hrefused⟩
  · cases hrun : (d.tree.run os.maxBytes (.write x.path (offsetOf offset toEof) payload)).1 with
    | none => rw [hrun] at hconveys; cases hconveys
    | some a =>
      obtain ⟨n, rfl⟩ := written_of_write hrun
      rw [hrun] at hconveys
      cases hconveys with
      | @written attr _ _ hdepicts =>
        refine .inl ⟨attr, n, rfl, hdepicts, ?_⟩
        rw [hwrite, bind_of_ok hok, ← bind_pure_comp]
  · exact .inr ⟨hrefused.resolve_right id, e, hwrite.trans (bind_of_error herror)⟩

/-- A write anywhere. -/
theorem serves_write (m : Presents srv desk d) (hx : d.handle i = some x) {buffer : List UInt8}
    {offset : UInt64} {toEof : Bool}
    (hs : Supported fs srv os desk (.write i buffer offset toEof false)) :
    Serves fs srv os.maxBytes desk d (.write i buffer offset toEof false)
      ((DriveCall.write i buffer offset toEof false).run (fs.connected srv os) desk) := by
  have hact : d.act os.maxBytes (DriveCall.write i buffer offset toEof false).op = _ :=
    Drive.act_keep _ (.write (offsetOf offset toEof) buffer)
      (.write x.path (offsetOf offset toEof) buffer) hx rfl rfl
  obtain ⟨t', hplain, ⟨attr, n, hrun, hdepicts, hwrite⟩ | ⟨hrun, e, hwrite⟩⟩ :=
    writes m fs hx (hs.sent _ rfl)
  · rw [hrun] at hact
    exact .of_filled m hs rfl hwrite hdepicts hact (fun _ => .written _) hplain rfl
  · rw [hrun] at hact
    exact .of_error m (inside_of_error hwrite) hact (.inl rfl) hplain rfl

/-- A write that stays within the file. -/
theorem serves_overwrite (m : Presents srv desk d) (hx : d.handle i = some x)
    {buffer : List UInt8} {offset : UInt64} {toEof : Bool}
    (hs : Supported fs srv os desk (.write i buffer offset toEof true)) :
    Serves fs srv os.maxBytes desk d (.write i buffer offset toEof true)
      ((DriveCall.write i buffer offset toEof true).run (fs.connected srv os) desk) := by
  have hh := m.handles i x hx
  have hwrite : (fs.connected srv os).write i buffer offset toEof true desk.world
      = ((fs.connected srv os).fetchAttr (desk.world.contexts i).path >>= fun attr =>
          if attr.size ≤ offset then return (0, none)
          else (fs.connected srv os).writePayload i (buffer.take (attr.size - offset).toNat)
            offset toEof) desk.world := bind_of_ok (pathOf_apply i desk.world)
  have hnothing : d.tree.contents x.path = none →
      d.act os.maxBytes (DriveCall.write i buffer offset toEof true).op = (none, d) := by
    intro hnone
    have hact := Drive.act_keep os.maxBytes (.overwrite offset.toNat toEof buffer) _ hx
      (Handle.overwrite_none hnone) rfl
    rwa [run_write_none hnone] at hact
  rcases m.fetches fs (hs.sent _ (.inl rfl)) with ⟨p, attr, n, hp, hn, hdepicts, hfetch, hstat⟩ |
    ⟨hnone, e, w', hfetch, hnet, hcontexts⟩
  · rw [hh.path] at hp
    cases hp
    rw [bind_of_ok hfetch] at hwrite
    cases n with
    | file old =>
      -- the size that is reported is the length of the file
      have hcontents : d.tree.contents x.path = some old := contents_eq_some.mpr hn
      have hsize : attr.size.toNat = old.length := by
        obtain ⟨h, hview⟩ := m.plain
        rw [← hview, h.node_eq_file_iff] at hn
        rw [hdepicts.2]
        exact UInt64.toNat_ofNat_of_lt' (hs.short _ _ hn)
      by_cases hbehind : attr.size ≤ offset
      · have hact := Drive.act_keep os.maxBytes (.overwrite offset.toNat toEof buffer)
          (.look x.path) hx
          (Handle.overwrite_behind hcontents (hsize ▸ UInt64.le_iff_toNat_le.mp hbehind)) rfl
        have hlook : (d.tree.run os.maxBytes (.look x.path)).1 = some (.node (.file old)) :=
          Option.map_eq_some_iff.mpr ⟨_, hn, rfl⟩
        rw [hlook] at hact
        rw [if_pos hbehind] at hwrite
        exact .of_ok m (inside_of_ok hwrite) hact .behind m.plain rfl
      · have hlt : offset.toNat < old.length := by
          rw [← hsize]
          exact Nat.not_le.mp fun hle => hbehind (UInt64.le_iff_toNat_le.mpr hle)
        have hlength : (attr.size - offset).toNat = old.length - offset.toNat := by
          rw [UInt64.toNat_sub_of_le _ _ (UInt64.le_iff_toNat_le.mpr (hsize ▸ hlt.le)), hsize]
        rw [if_neg hbehind] at hwrite
        obtain ⟨t', hplain, hresult⟩ := writes m fs hx (hs.sent _ (.inr ⟨attr, hstat, rfl⟩))
        rw [hlength] at hwrite hplain hresult
        have hact := Drive.act_keep os.maxBytes (.overwrite offset.toNat toEof buffer) _
          hx (Handle.overwrite_inside hcontents hlt) rfl
        rcases hresult with ⟨attr', n, hrun, hdepicts', hpayload⟩ | ⟨hrun, e, hpayload⟩
        · rw [show (if toEof then none else some offset.toNat) = offsetOf offset toEof from rfl,
            hrun] at hact
          exact .of_filled m hs rfl (hwrite.trans hpayload) hdepicts' hact (fun _ => .written _)
            hplain rfl
        · rw [show (if toEof then none else some offset.toNat) = offsetOf offset toEof from rfl,
            hrun] at hact
          exact .of_error m (inside_of_error (hwrite.trans hpayload)) hact (.inl rfl) hplain rfl
    | dir =>
      have hact := hnothing (by unfold contents; rw [hn])
      by_cases hbehind : attr.size ≤ offset
      · rw [if_pos hbehind] at hwrite
        have hrun : (DriveCall.write i buffer offset toEof true).run (fs.connected srv os) desk
            = .ok (.written 0 none) desk := inside_of_ok hwrite
        rw [hrun]
        refine ⟨?_, ?_⟩
        · rw [hact]
          exact .idle
        · rw [hact]
          exact m
      · rw [if_neg hbehind] at hwrite
        obtain ⟨t', hplain, hresult⟩ := writes m fs hx (hs.sent _ (.inr ⟨attr, hstat, rfl⟩))
        rw [run_write_none (by unfold contents; rw [hn])] at hplain hresult
        rcases hresult with ⟨attr', n, hrun, -⟩ | ⟨-, e, hpayload⟩
        · cases hrun
        · exact .of_error m (inside_of_error (hwrite.trans hpayload)) hact (.inl rfl) hplain rfl
  · refine .of_error m (inside_of_error (hwrite.trans (bind_of_error hfetch)))
      (hnothing (by unfold contents; rw [hnone _ hh.path])) (.inl rfl) ?_ hcontexts
    rw [hnet]
    exact m.plain

end Netfilum
