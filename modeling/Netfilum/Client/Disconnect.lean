import Netfilum.Client.Callbacks

namespace Netfilum

open Program Rust

/-!
# Which callbacks report a lost server

A callback should record that the server is gone exactly when one of its requests failed
with a disconnect error.  Requests that go through `send_request` are watched for this,
those sent directly are not.

* `Exchange.recorded` — the transport with a log of the requests and their outcomes.
* `Watched` — the log grew by some requests, and the loss was reported if and only if one
  of these was lost; a reflexive and transitive relation on worlds.
* `watched_sendRequest` — a request through `send_request` keeps it, whatever its outcome.
* `run_shape` — a callback sends at most one request directly.
* `reports_loss_iff` — a callback reports correctly exactly when that request is not lost.
-/

/-- What came of a request: a transport error, or an answer of the server. -/
abbrev Outcome := Except IoError (RpcResult Response)

/-- The request failed with a transport error that `is_disconnect_error` accepts. -/
def Lost : Outcome → Prop
  | .error e => isDisconnectError e = true
  | .ok _    => False

instance : DecidablePred Lost
  | .error e => inferInstanceAs (Decidable (isDisconnectError e = true))
  | .ok _    => inferInstanceAs (Decidable False)

/-- The requests sent so far, and what came of them. -/
abbrev Log := List (Request × Outcome)

variable {σ Buf : Type}

/-- The transport, keeping a log. -/
def Exchange.recorded (exchange : Exchange σ) : Exchange (σ × Log) := fun request s =>
  match exchange request s.1 with
  | .ok v t    => .ok v (t, s.2 ++ [(request, .ok v)])
  | .error e t => .error e (t, s.2 ++ [(request, .error e)])

/-- The file system over the recorded transport. -/
def RpcFsContext.recorded (fs : RpcFsContext σ Buf) : RpcFsContext (σ × Log) Buf where
  exchange := fs.exchange.recorded
  dirBuffers := fs.dirBuffers
  securityDescriptor := fs.securityDescriptor
  volumeLabel := fs.volumeLabel

/-- A mount that has just started, with nothing in the log. -/
def World.begin (net : σ) (contexts : Nat → RpcFileContext Buf) : World (σ × Log) Buf where
  net := (net, [])
  mountState := {}
  contexts

/-- The mount is told to stop, and why. -/
def World.Reported (w : World σ Buf) : Prop :=
  w.mountState.stop = true ∧ w.mountState.disconnectMessage.isSome = true

/-- Some request of the log was lost. -/
def Log.Lossy (log : Log) : Prop := ∃ rpc ∈ log, Lost rpc.2

/-! ### What a step may do -/

/-- The log grew, and the loss was reported exactly when a new request was lost. -/
def Watched (w w' : World (σ × Log) Buf) : Prop :=
  ∃ new : Log, w'.net.2 = w.net.2 ++ new ∧ (w'.Reported ↔ w.Reported ∨ new.Lossy)

/-- Where nothing is sent nothing is reported. -/
theorem Watched.refl (w : World (σ × Log) Buf) : Watched w w :=
  ⟨[], (List.append_nil _).symm, by simp [Log.Lossy]⟩

/-- Two steps report what either of them has lost. -/
theorem Watched.trans {w w' w'' : World (σ × Log) Buf} (h : Watched w w') (h' : Watched w' w'') :
    Watched w w'' := by
  obtain ⟨new, hlog, hrep⟩ := h
  obtain ⟨new', hlog', hrep'⟩ := h'
  refine ⟨new ++ new', by rw [hlog', hlog, List.append_assoc], ?_⟩
  have hlost : Log.Lossy (new ++ new') ↔ Log.Lossy new ∨ Log.Lossy new' := by
    simp only [Log.Lossy, List.mem_append, or_and_right, exists_or]
  rw [hrep', hrep, hlost, or_assoc]

/-- A step that neither sends nor reports. -/
theorem Watched.of_eq {w w' : World (σ × Log) Buf} (hnet : w'.net = w.net)
    (hmount : w'.mountState = w.mountState) : Watched w w' := by
  refine ⟨[], by rw [hnet, List.append_nil], ?_⟩
  unfold World.Reported
  rw [hmount]
  simp [Log.Lossy]

/-- One more request in the log, and the mount state of before. -/
theorem Watched.of_sent {w w' : World (σ × Log) Buf} {r : Request × Outcome}
    (hlog : w'.net.2 = w.net.2 ++ [r]) (hmount : w'.mountState = w.mountState)
    (hlost : ¬ Lost r.2) : Watched w w' := by
  refine ⟨[r], hlog, ?_⟩
  unfold World.Reported
  rw [hmount]
  simp [Log.Lossy, hlost]

/-- Keeping `Watched` from `w` on. -/
abbrev Watches {α : Type} (x : ClientM (σ × Log) Buf α) (w : World (σ × Log) Buf) : Prop :=
  Respects Watched x w

namespace RpcFsContext

variable (fs : RpcFsContext σ Buf)

/-! ### Sending -/

/-- No error the server answers is taken for a disconnect. -/
theorem isDisconnectError_toIoError (e : RpcError) : isDisconnectError e.toIoError = false := by
  obtain ⟨code, message⟩ := e
  cases code <;> rfl

/-- The recorded transport answers as the other does, and keeps what it was asked. -/
theorem send_recorded (request : Request) (s : σ × Log) :
    send fs.exchange.recorded request s
      = match outcome (fs.exchange request s.1) with
        | .ok (.ok v)    =>
          .ok v (final (fs.exchange request s.1), s.2 ++ [(request, .ok (.ok v))])
        | .ok (.error e) => .error e.toIoError
            (final (fs.exchange request s.1), s.2 ++ [(request, .ok (.error e))])
        | .error e       => .error e
            (final (fs.exchange request s.1), s.2 ++ [(request, .error e)]) := by
  unfold send
  rw [bind_apply]
  unfold Exchange.recorded
  cases fs.exchange request s.1 with
  | ok v t => cases v <;> rfl
  | error e t => rfl

/-- A request through `send_request` keeps watch, whatever becomes of it. -/
theorem watched_sendRequest (request : Request) (w : World (σ × Log) Buf) :
    Watches (fs.recorded.sendRequest request) w := by
  unfold Watches Respects sendRequest
  rw [show fs.recorded.exchange = fs.exchange.recorded from rfl, send_recorded]
  cases ho : outcome (fs.exchange request w.net.1) with
  | ok v =>
    cases v with
    | ok v => exact .of_sent (r := (request, .ok (.ok v))) rfl rfl id
    | error e =>
      have hmount : mapRpcError e.toIoError w.mountState = w.mountState :=
        if_neg (by rw [isDisconnectError_toIoError]; exact Bool.false_ne_true)
      exact .of_sent (r := (request, .ok (.error e))) rfl hmount id
  | error e =>
    by_cases hd : isDisconnectError e = true
    · have hrep : (mapRpcError e w.mountState).stop = true ∧
          (mapRpcError e w.mountState).disconnectMessage.isSome = true := by
        unfold mapRpcError MountState.reportDisconnect
        rw [if_pos hd]
        cases w.mountState.disconnectMessage <;> exact ⟨rfl, rfl⟩
      have hlost : Log.Lossy [(request, .error e)] := ⟨_, List.mem_singleton_self _, hd⟩
      exact ⟨[(request, .error e)], rfl, iff_of_true hrep (.inr hlost)⟩
    · have hmount : mapRpcError e w.mountState = w.mountState := if_neg hd
      exact .of_sent (r := (request, .error e)) rfl hmount hd

/-- A request sent directly changes no mount state. -/
theorem final_sendDirect (request : Request) (w : World (σ × Log) Buf) :
    final (fs.recorded.sendDirect request w)
      = { w with net := (final (fs.exchange request w.net.1),
          w.net.2 ++ [(request, outcome (fs.exchange request w.net.1))]) } := by
  unfold sendDirect
  rw [show fs.recorded.exchange = fs.exchange.recorded from rfl, send_recorded]
  cases outcome (fs.exchange request w.net.1) with
  | ok v => cases v <;> rfl
  | error e => rfl

/-- A request that is not lost leaves no report to be made. -/
theorem watched_sendDirect (request : Request) (w : World (σ × Log) Buf)
    (h : ¬ Lost (outcome (fs.exchange request w.net.1))) :
    Watches (fs.recorded.sendDirect request) w := by
  unfold Watches Respects
  rw [final_sendDirect]
  exact .of_sent rfl rfl h

/-- A direct request that is lost ends what it is part of. -/
theorem sendDirect_lost {request : Request} {w : World (σ × Log) Buf}
    (h : Lost (outcome (fs.exchange request w.net.1))) :
    ∃ e, ∃ w', fs.recorded.sendDirect request w = .error e w' := by
  unfold sendDirect
  rw [show fs.recorded.exchange = fs.exchange.recorded from rfl, send_recorded]
  cases ho : outcome (fs.exchange request w.net.1) with
  | ok v => rw [ho] at h; exact absurd h id
  | error e => exact ⟨_, _, rfl⟩

/-! ### The callbacks -/

end RpcFsContext

/-- A callback that can issue requests, with its arguments. -/
inductive Callback where
  | getSecurityByName (fileName : List UInt16) (securityDescriptor : Option (List UInt8))
      (reparse : Option FileSecurity)
  | openFile (fileName : List UInt16)
  | create (fileName : List UInt16) (createOptions fileAttributes : UInt32)
      (allocationSize : UInt64)
  | cleanup (handle : Nat) (flags : UInt32)
  | flush (handle : Option Nat)
  | getFileInfo (handle : Nat)
  | readDirectory (handle : Nat) (marker : Option (List UInt16)) (buffer : List UInt8)
  | rename (handle : Nat) (newFileName : List UInt16) (replaceIfExists : Bool)
  | setBasicInfo (handle : Nat) (fileAttributes : UInt32)
      (creationTime lastAccessTime lastWriteTime changeTime : UInt64)
  | setDelete (handle : Nat) (deleteFile : Bool)
  | setFileSize (handle : Nat) (newSize : UInt64) (setAllocationSize : Bool)
  | read (handle : Nat) (buffer : List UInt8) (offset : UInt64)
  | write (handle : Nat) (buffer : List UInt8) (offset : UInt64) (writeToEof constrainedIo : Bool)
  | getVolumeInfo

namespace RpcFsContext

variable (fs : RpcFsContext σ Buf)

/-- Forget what a callback returns. -/
def discard {α : Type} (x : ClientM σ Buf α) : ClientM σ Buf Unit := (fun _ => ()) <$> x

/-- Run a callback. -/
def run : Callback → ClientM σ Buf Unit
  | .getSecurityByName name descriptor reparse =>
    discard (fs.getSecurityByName name descriptor reparse)
  | .openFile name => discard (fs.openFile name)
  | .create name options attributes size => discard (fs.create name options attributes size)
  | .cleanup handle flags => fs.cleanup handle flags
  | .flush handle => discard (fs.flush handle)
  | .getFileInfo handle => discard (fs.getFileInfo handle)
  | .readDirectory handle marker buffer => discard (fs.readDirectory handle marker buffer)
  | .rename handle name replace => fs.rename handle name replace
  | .setBasicInfo handle attributes created accessed written changed =>
    discard (fs.setBasicInfo handle attributes created accessed written changed)
  | .setDelete handle delete => fs.setDelete handle delete
  | .setFileSize handle size allocation => discard (fs.setFileSize handle size allocation)
  | .read handle buffer offset => discard (fs.read handle buffer offset)
  | .write handle buffer offset toEof constrained =>
    discard (fs.write handle buffer offset toEof constrained)
  | .getVolumeInfo => discard fs.getVolumeInfo

/-- The request a callback sends directly, if any, and the state of the transport it is
    sent in.  A constrained write asks for the size first. -/
def direct (cb : Callback) (w : World σ Buf) : Option (Request × σ) :=
  let path handle := (w.contexts handle).path
  match cb with
  | .create name options attributes size =>
    let kind := if options &&& fileDirectoryFileFlag ≠ 0 then .directory else .file
    some (.create (ntPathToRelative name) kind attributes size, w.net)
  | .cleanup handle flags =>
    if shouldDelete (w.contexts handle) flags then
      some (removeRequest (w.contexts handle), w.net)
    else none
  | .flush (some handle) => some (.flush (some (path handle)), w.net)
  | .flush none => some (.flush none, w.net)
  | .rename handle name replace =>
    some (.rename (path handle) (ntPathToRelative name) replace, w.net)
  | .setBasicInfo handle attributes created accessed written changed =>
    some (.setBasicInfo (path handle)
      { readonly       := readonlyUpdateFromAttributes attributes
        creationTime   := wireTimeFromWindows created
        lastAccessTime := wireTimeFromWindows accessed
        lastWriteTime  := wireTimeFromWindows written
        changeTime     := wireTimeFromWindows changed }, w.net)
  | .setDelete handle delete =>
    if delete then some (.canDelete (path handle) (w.contexts handle).kind, w.net) else none
  | .setFileSize handle size allocation => some (.setLen (path handle) size allocation, w.net)
  | .read handle buffer offset =>
    some (.read (path handle) offset (UInt32.ofNat buffer.length), w.net)
  | .write handle buffer offset toEof constrained =>
    if constrained then
      match send fs.exchange (.stat (path handle)) w.net with
      | .ok (.attr attr) net =>
        if attr.size ≤ offset then none
        else some (.write (path handle) offset (buffer.take (attr.size - offset).toNat) toEof, net)
      | _ => none
    else some (.write (path handle) offset buffer toEof, w.net)
  | .getVolumeInfo => some (.getVolumeInfo, w.net)
  | .getSecurityByName .. | .openFile .. | .getFileInfo .. | .readDirectory .. => none

/-! ### The shape of a callback -/

/-- A step that leaves transport and mount state alone. -/
theorem watches_quiet {α : Type} {x : ClientM (σ × Log) Buf α} {w : World (σ × Log) Buf}
    (hnet : (final (x w)).net = w.net) (hmount : (final (x w)).mountState = w.mountState) :
    Watches x w := .of_eq hnet hmount

/-- A check sends nothing. -/
theorem watches_checked {α : Type} (x : Checked α) (w : World (σ × Log) Buf) :
    Watches (checked x : ClientM (σ × Log) Buf α) w := by
  unfold checked given
  exact Respects.observe Watched.refl _ w

/-- Returning a value sends nothing. -/
theorem watches_pure {α : Type} (a : α) (w : World (σ × Log) Buf) :
    Watches (pure a : ClientM (σ × Log) Buf α) w :=
  Respects.pure Watched.refl a w

/-- Throwing an error sends nothing. -/
theorem watches_throw {α : Type} (stop : Stop) (w : World (σ × Log) Buf) :
    Watches (throw stop : ClientM (σ × Log) Buf α) w :=
  Respects.throw Watched.refl stop w

/-- Two steps report their losses if both do. -/
theorem watches_bind {α β : Type} {x : ClientM (σ × Log) Buf α}
    {f : α → ClientM (σ × Log) Buf β} {w : World (σ × Log) Buf} (hx : Watches x w)
    (hf : ∀ a w', Watches (f a) w') : Watches (x >>= f) w := by
  refine Respects.bind ?_ hx (fun a w' _ => hf a w')
  exact Watched.trans

/-- A step whose result is dropped reports its losses. -/
theorem watches_discard {α : Type} {x : ClientM (σ × Log) Buf α} {w : World (σ × Log) Buf}
    (h : Watches x w) : Watches (discard x) w :=
  Respects.map h

/-- Asking for attributes reports its losses. -/
theorem watches_fetchAttr (path : String) (w : World (σ × Log) Buf) :
    Watches (fs.recorded.fetchAttr path) w := by
  refine watches_bind (fs.watched_sendRequest _ w) (fun v w' => ?_)
  cases v with
  | attr attr => exact watches_pure attr w'
  | dirEntries _ | data _ | writeResult _ _ | volumeInfo _ | empty => exact watches_throw _ w'

/-- Asking for the entries reports its losses. -/
theorem watches_fetchDirEntries (path : String) (w : World (σ × Log) Buf) :
    Watches (fs.recorded.fetchDirEntries path) w := by
  refine watches_bind (fs.watched_sendRequest _ w) (fun v w' => ?_)
  cases v with
  | dirEntries entries => exact watches_pure entries w'
  | attr _ | data _ | writeResult _ _ | volumeInfo _ | empty => exact watches_throw _ w'

/-- What a callback `x` does from `w`: keep watch, or send one request directly after
    keeping watch and with watch kept afterwards. -/
inductive Shape (x : ClientM (σ × Log) Buf Unit) (w : World (σ × Log) Buf) :
    Option (Request × (σ × Log)) → Prop where
  | watched (h : Watches x w) : Shape x w none
  | direct {α : Type} (request : Request) (w' : World (σ × Log) Buf)
      (k : Response → ClientM (σ × Log) Buf α) (hbefore : Watched w w')
      (hmount : w'.mountState = w.mountState)
      (hrun : final (x w) = final ((fs.recorded.sendDirect request >>= k) w'))
      (hafter : ∀ v w'', Watches (k v) w'') : Shape x w (some (request, w'.net))

/-- A callback that begins with its direct request. -/
theorem Shape.first {α : Type} {x : ClientM (σ × Log) Buf Unit} {w : World (σ × Log) Buf}
    {request : Request} (k : Response → ClientM (σ × Log) Buf α)
    (hrun : final (x w) = final ((fs.recorded.sendDirect request >>= k) w))
    (hafter : ∀ v w', Watches (k v) w') : fs.Shape x w (some (request, w.net)) :=
  .direct request w k (.refl w) rfl hrun hafter

/-- Nothing is sent when a write has been answered. -/
theorem watches_written (v : Response) (w : World (σ × Log) Buf) :
    Watches (match v with
      | .writeResult written attr => do
        let fileInfo ← checked (fillFileInfo attr)
        return (written, some fileInfo)
      | _ => throwIo (.other "unexpected write response")
        : ClientM (σ × Log) Buf (UInt32 × Option FileInfo)) w := by
  cases v with
  | writeResult written attr =>
    exact watches_bind (watches_checked _ w) (fun info w' => watches_pure _ w')
  | attr _ | dirEntries _ | data _ | volumeInfo _ | empty => exact watches_throw _ w

/-- The end of `flush` reports its losses. -/
theorem watches_flush_end (handle : Nat) (w : World (σ × Log) Buf) :
    Watches (do
      let path ← pathOf handle
      let attr ← fs.recorded.fetchAttr path
      let fileInfo ← checked (fillFileInfo attr)
      return some fileInfo) w := by
  refine watches_bind (.of_eq rfl rfl) (fun path w1 => ?_)
  refine watches_bind (fs.watches_fetchAttr path w1) (fun attr w2 => ?_)
  exact watches_bind (watches_checked _ w2) (fun info w3 => watches_pure _ w3)

/-- Filling the buffer sends nothing. -/
theorem watches_fillDirBuffer (handle : Nat) (restart : Bool) (attr : FileAttr)
    (entries : List DirEntry) (w : World (σ × Log) Buf) :
    Watches (fs.recorded.fillDirBuffer handle restart attr entries) w := by
  unfold fillDirBuffer
  refine watches_quiet ?_ ?_ <;> dsimp only <;> split
  · rfl
  · split <;> rfl
  · rfl
  · split <;> rfl

/-- A clean-up ignores what its removal comes to. -/
theorem cleanup_shape (handle : Nat) (flags : UInt32) (w : World (σ × Log) Buf) :
    fs.Shape (fs.recorded.run (.cleanup handle flags)) w
      (fs.recorded.direct (.cleanup handle flags) w) := by
  by_cases hdel : shouldDelete (w.contexts handle) flags = true
  · rw [show fs.recorded.direct (.cleanup handle flags) w
        = some (removeRequest (w.contexts handle), w.net) from if_pos hdel]
    refine Shape.first fs (fun _ => pure ()) ?_ (fun _ w' => watches_pure () w')
    have hrun : fs.recorded.run (.cleanup handle flags) w
        = .ok () (final (fs.recorded.sendDirect (removeRequest (w.contexts handle)) w)) :=
      if_pos hdel
    rw [hrun, bind_apply]
    -- an error of the removal is dropped, so both outcomes leave the same world
    cases fs.recorded.sendDirect (removeRequest (w.contexts handle)) w <;> rfl
  · rw [show fs.recorded.direct (.cleanup handle flags) w = none from if_neg hdel]
    have hrun : fs.recorded.run (.cleanup handle flags) w = .ok () w := if_neg hdel
    exact .watched (watches_quiet (by rw [hrun]; rfl) (by rw [hrun]; rfl))

/-- A constrained write asks for the size through `send_request`, and writes directly only
    when the offset lies before the end. -/
theorem constrained_shape (handle : Nat) (buffer : List UInt8) (offset : UInt64) (toEof : Bool)
    (w : World (σ × Log) Buf) :
    fs.Shape (fs.recorded.run (.write handle buffer offset toEof true)) w
      (fs.recorded.direct (.write handle buffer offset toEof true) w) := by
  have hwatch := fs.watches_fetchAttr (w.contexts handle).path w
  have hfetch := fs.recorded.fetchAttr_apply (w.contexts handle).path w
  rw [Watches, Respects, hfetch] at hwatch
  have hrun : final (fs.recorded.run (.write handle buffer offset toEof true) w)
      = final ((fs.recorded.fetchAttr (w.contexts handle).path >>= fun attr =>
          if attr.size ≤ offset then return (0, none)
          else fs.recorded.writePayload handle (buffer.take (attr.size - offset).toNat)
            offset toEof) w) := final_map _ _ _
  unfold direct
  dsimp only
  rw [if_pos rfl]
  cases hs : send fs.recorded.exchange (.stat (w.contexts handle).path) w.net with
  | error e net =>
    rw [hs] at hfetch hwatch
    refine .watched (show Watched _ _ from ?_)
    rw [hrun, bind_of_error hfetch]
    exact hwatch
  | ok v net =>
    rw [hs] at hfetch hwatch
    cases v with
    | attr attr =>
      rw [bind_of_ok hfetch] at hrun
      dsimp only
      by_cases hsize : attr.size ≤ offset
      · -- nothing to write: the callback ends after the watched request
        rw [if_pos hsize] at hrun ⊢
        refine .watched (show Watched _ _ from ?_)
        rw [hrun]
        exact hwatch
      · -- the payload is cut at the size just learnt, and sent directly
        rw [if_neg hsize] at hrun ⊢
        exact .direct _ { w with net } _ hwatch rfl hrun (fun v w' => watches_written v w')
    | dirEntries _ | data _ | writeResult _ _ | volumeInfo _ | empty =>
      refine .watched (show Watched _ _ from ?_)
      rw [hrun, bind_of_error hfetch]
      exact hwatch

/-- Every callback has the shape that `direct` describes. -/
theorem run_shape (cb : Callback) (w : World (σ × Log) Buf) :
    fs.Shape (fs.recorded.run cb) w (fs.recorded.direct cb w) := by
  cases cb with
  -- the callbacks that only use `send_request`
  | getSecurityByName name descriptor reparse =>
    refine .watched (watches_discard ?_)
    cases reparse with
    | some security => exact watches_pure _ w
    | none => exact watches_bind (fs.watches_fetchAttr _ w) (fun attr w' => watches_pure _ w')
  | openFile name =>
    refine .watched (watches_discard (watches_bind (fs.watches_fetchAttr _ w) fun attr w1 => ?_))
    exact watches_bind (watches_checked _ w1) (fun info w2 => watches_pure _ w2)
  | getFileInfo handle =>
    refine .watched (watches_discard (watches_bind (.of_eq rfl rfl) fun path w1 => ?_))
    exact watches_bind (fs.watches_fetchAttr path w1) (fun attr w2 => watches_checked _ w2)
  | readDirectory handle marker buffer =>
    refine .watched (watches_discard (watches_bind (.of_eq rfl rfl) fun path w1 => ?_))
    refine watches_bind (fs.watches_fetchAttr path w1) (fun attr w2 => ?_)
    refine watches_bind (fs.watches_fetchDirEntries path w2) (fun entries w3 => ?_)
    exact watches_bind (fs.watches_fillDirBuffer handle _ attr entries w3)
      (fun _ w4 => .of_eq rfl rfl)
  -- the callbacks that begin with a direct request
  | create name options attributes size =>
    refine Shape.first fs _ (final_map _ _ _) (fun v w' => ?_)
    cases v with
    | attr attr => exact watches_bind (watches_checked _ w') (fun info w2 => watches_pure _ w2)
    | dirEntries _ | data _ | writeResult _ _ | volumeInfo _ | empty => exact watches_throw _ w'
  | cleanup handle flags => exact fs.cleanup_shape handle flags w
  | flush handle =>
    cases handle with
    | some handle =>
      exact Shape.first fs _ (final_map _ _ _) (fun _ w' => fs.watches_flush_end handle w')
    | none =>
      exact Shape.first fs _ (final_map _ _ _) (fun _ w' => watches_pure _ w')
  | rename handle name replace =>
    exact Shape.first fs _ rfl (fun _ w' => .of_eq rfl rfl)
  | setBasicInfo handle attributes created accessed written changed =>
    refine Shape.first fs _ (final_map _ _ _) (fun v w' => ?_)
    cases v with
    | attr attr => exact watches_checked _ w'
    | dirEntries _ | data _ | writeResult _ _ | volumeInfo _ | empty => exact watches_throw _ w'
  | setDelete handle delete =>
    cases delete with
    | true => exact Shape.first fs _ rfl (fun _ w' => .of_eq rfl rfl)
    | false => exact .watched (.of_eq rfl rfl)
  | setFileSize handle size allocation =>
    refine Shape.first fs _ (final_map _ _ _) (fun v w' => ?_)
    cases v with
    | attr attr => exact watches_checked _ w'
    | dirEntries _ | data _ | writeResult _ _ | volumeInfo _ | empty => exact watches_throw _ w'
  | read handle buffer offset =>
    refine Shape.first fs _ (final_map _ _ _) (fun v w' => ?_)
    cases v with
    | data data =>
      dsimp only
      split
      · exact watches_throw _ w'
      · exact watches_pure _ w'
    | attr _ | dirEntries _ | writeResult _ _ | volumeInfo _ | empty => exact watches_throw _ w'
  | getVolumeInfo =>
    refine Shape.first fs _ (final_map _ _ _) (fun v w' => ?_)
    cases v with
    | volumeInfo info => exact watches_pure _ w'
    | attr _ | dirEntries _ | data _ | writeResult _ _ | empty => exact watches_throw _ w'
  | write handle buffer offset toEof constrained =>
    cases constrained with
    | false => exact Shape.first fs _ (final_map _ _ _) (fun v w' => watches_written v w')
    | true => exact fs.constrained_shape handle buffer offset toEof w

/-! ### When the loss is reported -/

/-- **Reporting a lost server.**  After a callback on a fresh mount, the loss is reported
    exactly when a request was lost, if and only if the request that the callback sends
    directly is not lost. -/
theorem reports_loss_iff (cb : Callback) (net : σ) (contexts : Nat → RpcFileContext Buf) :
    let w := World.begin net contexts
    let w' := final (fs.recorded.run cb w)
    (w'.Reported ↔ Log.Lossy w'.net.2) ↔
      ∀ request s, fs.recorded.direct cb w = some (request, s) →
        ¬ Lost (outcome (fs.exchange request s.1)) := by
  intro w w'
  have hfresh : ¬ w.Reported := fun h => Bool.false_ne_true h.1
  have hshape := fs.run_shape cb w
  constructor
  · intro hiff request s hdirect hlost
    rw [hdirect] at hshape
    cases hshape with
    | direct _ w1 k _ hmount hrun _ =>
      -- the lost request ends the callback: it is in the log, and nothing was reported
      obtain ⟨e, w2, herr⟩ := fs.sendDirect_lost hlost
      have hfinal : w' = final (fs.recorded.sendDirect request w1) := by
        show final _ = _
        rw [hrun, bind_of_error herr, herr]
        rfl
      rw [hfinal, fs.final_sendDirect] at hiff
      refine hfresh ?_
      have hrep := hiff.mpr ⟨_, List.mem_append_right _ (List.mem_singleton_self _), hlost⟩
      unfold World.Reported at hrep ⊢
      rwa [hmount] at hrep
  · intro hkept
    -- watch is kept before the direct request, by it since it is not lost, and after it
    have hwatch : Watched w w' := by
      cases hd : fs.recorded.direct cb w with
      | none =>
        rw [hd] at hshape
        cases hshape with
        | watched h => exact h
      | some p =>
        obtain ⟨request, s⟩ := p
        rw [hd] at hshape
        cases hshape with
        | direct _ w1 k hbefore _ hrun hafter =>
          have hsend := fs.watched_sendDirect request w1 (hkept request _ hd)
          have hrest := watches_bind hsend hafter
          have : Watched w1 w' := by
            show Watched w1 (final _)
            rw [hrun]
            exact hrest
          exact hbefore.trans this
    obtain ⟨new, hlog, hrep⟩ := hwatch
    rw [hrep, hlog, show w.net.2 = [] from rfl, List.nil_append]
    exact or_iff_right hfresh

end RpcFsContext

/-! ### A loss that is not reported -/

/-- A mount whose server is gone: every connection is refused. -/
def refused : RpcFsContext Unit Unit where
  exchange := fun _ s => .error ⟨.connectionRefused, "Connection refused (os error 111)"⟩ s
  dirBuffers := {
    new := ()
    acquire := fun _ _ _ => none
    setName := fun _ => .ok ()
    write := fun _ _ _ => .ok ()
    read := fun _ _ buffer => (buffer, 0) }
  securityDescriptor := []
  volumeLabel := ""

/-- Reading a file when the server is gone: the request is lost and nobody is told. -/
theorem refused_read_unreported :
    let w := World.begin () (fun _ => ⟨"a.txt", .file, (), false⟩)
    let w' := final (refused.recorded.run (.read 0 [0, 0, 0, 0] 0) w)
    ¬ (w'.Reported ↔ Log.Lossy w'.net.2) := by
  intro w w' hiff
  have hlossy : Log.Lossy w'.net.2 := ⟨_, List.mem_singleton_self _, by decide⟩
  exact absurd (hiff.mpr hlossy).1 (by decide)

end Netfilum
