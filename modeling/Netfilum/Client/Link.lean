import Netfilum.Client.Callbacks
import Netfilum.Rpc.Frame
import Netfilum.Server.Resolve

namespace Netfilum

open Posix Program Rust

/-!
# The client and the server together

The callbacks over a server whose connections do not fail: a request is dispatched if it
fits in a frame, and its result comes back if that fits in one.

* `RpcServer.exchange` — the transport that `send` and `handle_data` make up.
* `RpcFsContext.connected` — the callbacks over it; the system may differ from call to
  call, so that time goes by.
* `sendDirect_connected` — a request that succeeds is one dispatch.
-/

/-- One exchange.  A result that does not fit in a frame is not sent: the server closes the
    connection. -/
def RpcServer.exchange (srv : RpcServer) (os : Os) : Exchange Tree := fun request t =>
  if (Message.request request).Fits then
    let result := srv.dispatch os request t
    if (Message.result (outcome result)).Fits then .ok (outcome result) (final result)
    else .error .eof (final result)
  else .error ⟨.invalidInput, "encrypted frame exceeds u32 length limit"⟩ t

variable {Buf : Type}

/-- The callbacks, connected to a server. -/
def RpcFsContext.connected (fs : RpcFsContext Tree Buf) (srv : RpcServer) (os : Os) :
    RpcFsContext Tree Buf :=
  { fs with exchange := srv.exchange os }

variable {fs : RpcFsContext Tree Buf} {srv : RpcServer} {os : Os}

/-- What becomes of a request: it succeeds with a dispatch, or fails with an error. -/
theorem send_exchange (srv : RpcServer) (os : Os) (request : Request) (t : Tree) :
    (∃ response t', (Message.request request).Fits ∧
      srv.dispatch os request t = .ok response t' ∧
      send (srv.exchange os) request t = .ok response t') ∨
    ∃ e t', (t' = t ∨ t' = final (srv.dispatch os request t)) ∧
      send (srv.exchange os) request t = .error e t' := by
  unfold send
  rw [bind_apply]
  unfold RpcServer.exchange
  by_cases hreq : (Message.request request).Fits
  · rw [if_pos hreq]
    dsimp only
    by_cases hres : (Message.result (outcome (srv.dispatch os request t))).Fits
    · rw [if_pos hres]
      cases hd : srv.dispatch os request t with
      | ok response t' => exact .inl ⟨response, t', hreq, rfl, rfl⟩
      | error e t' => exact .inr ⟨e.toIoError, t', .inr rfl, rfl⟩
    · rw [if_neg hres]
      exact .inr ⟨_, _, .inr rfl, rfl⟩
  · rw [if_neg hreq]
    exact .inr ⟨_, _, .inl rfl, rfl⟩

/-- A request that fits in a frame has the effect of its dispatch, whatever comes back. -/
theorem final_send_exchange (srv : RpcServer) (os : Os) (request : Request) (t : Tree) :
    final (send (srv.exchange os) request t)
      = if (Message.request request).Fits then final (srv.dispatch os request t) else t := by
  unfold send
  rw [bind_apply]
  unfold RpcServer.exchange
  by_cases hreq : (Message.request request).Fits
  · rw [if_pos hreq, if_pos hreq]
    dsimp only
    -- a result that does not fit is lost, its effect is not
    by_cases hres : (Message.result (outcome (srv.dispatch os request t))).Fits
    · rw [if_pos hres]
      cases srv.dispatch os request t with
      | ok response t' => rfl
      | error e t' => rfl
    · rw [if_neg hres]
      rfl
  · rw [if_neg hreq, if_neg hreq]
    rfl

/-- The tree behind a request, whether it succeeds or not. -/
theorem net_sendDirect (fs : RpcFsContext Tree Buf) (srv : RpcServer) (os : Os)
    (request : Request) (w : World Tree Buf) :
    (final ((fs.connected srv os).sendDirect request w)).net
      = if (Message.request request).Fits then final (srv.dispatch os request w.net)
        else w.net := by
  rw [← final_send_exchange]
  unfold RpcFsContext.sendDirect
  rw [show (fs.connected srv os).exchange = srv.exchange os from rfl]
  cases send (srv.exchange os) request w.net with
  | ok response net => rfl
  | error e net => rfl

/-- A request that is dispatched successfully succeeds if its result fits in a frame; one that
    does not fit in a frame itself changes nothing. -/
theorem sendDirect_of_fits {request : Request} {w : World Tree Buf} {response : Response}
    {t' : Tree} (hreq : (Message.request request).Fits)
    (hd : srv.dispatch os request w.net = .ok response t')
    (hres : (Message.result (.ok response)).Fits) :
    (fs.connected srv os).sendDirect request w = .ok response { w with net := t' } := by
  have hsend : send (srv.exchange os) request w.net = .ok response t' := by
    have hexchange : srv.exchange os request w.net = .ok (.ok response) t' := by
      unfold RpcServer.exchange
      rw [if_pos hreq, hd]
      exact if_pos hres
    unfold send
    rw [bind_of_ok hexchange]
    rfl
  unfold RpcFsContext.sendDirect
  rw [show (fs.connected srv os).exchange = srv.exchange os from rfl, hsend]

/-- A request that does not fit in a frame is not sent. -/
theorem sendDirect_of_not_fits (fs : RpcFsContext Tree Buf) (srv : RpcServer) (os : Os)
    {request : Request} (w : World Tree Buf) (hreq : ¬ (Message.request request).Fits) :
    ∃ stop, (fs.connected srv os).sendDirect request w = .error stop w := by
  have hexchange : srv.exchange os request w.net
      = .error ⟨.invalidInput, "encrypted frame exceeds u32 length limit"⟩ w.net := if_neg hreq
  have hsend : send (srv.exchange os) request w.net
      = .error ⟨.invalidInput, "encrypted frame exceeds u32 length limit"⟩ w.net := by
    unfold send
    rw [bind_of_error hexchange]
  unfold RpcFsContext.sendDirect
  rw [show (fs.connected srv os).exchange = srv.exchange os from rfl, hsend]
  exact ⟨_, rfl⟩

/-- What a request is answered by a server, and what it leaves there. -/
theorem sendDirect_connected (fs : RpcFsContext Tree Buf) (srv : RpcServer) (os : Os)
    (request : Request) (w : World Tree Buf) :
    (∃ response t', (Message.request request).Fits ∧
      srv.dispatch os request w.net = .ok response t' ∧
      (fs.connected srv os).sendDirect request w = .ok response { w with net := t' }) ∨
    ∃ e t', (t' = w.net ∨ t' = final (srv.dispatch os request w.net)) ∧
      (fs.connected srv os).sendDirect request w = .error (.err (.io e)) { w with net := t' } := by
  unfold RpcFsContext.sendDirect
  rw [show (fs.connected srv os).exchange = srv.exchange os from rfl]
  rcases send_exchange srv os request w.net with
    ⟨response, t', hfits, hd, hsend⟩ | ⟨e, t', ht', hsend⟩
  · rw [hsend]
    exact .inl ⟨response, t', hfits, hd, rfl⟩
  · rw [hsend]
    exact .inr ⟨e, t', ht', rfl⟩

/-- A request that succeeds is one dispatch. -/
theorem send_exchange_eq_ok {request : Request} {response : Response} {t t' : Tree} :
    send (srv.exchange os) request t = .ok response t' ↔
      (Message.request request).Fits ∧ srv.dispatch os request t = .ok response t' ∧
        (Message.result (.ok response)).Fits := by
  unfold send
  rw [bind_apply]
  unfold RpcServer.exchange
  by_cases hreq : (Message.request request).Fits
  · rw [if_pos hreq]
    dsimp only
    cases hd : srv.dispatch os request t with
    | ok response' t₁ =>
      by_cases hres : (Message.result (.ok response')).Fits
      · rw [outcome_ok, if_pos hres]
        constructor
        · intro h
          cases h
          exact ⟨hreq, rfl, hres⟩
        · rintro ⟨-, hok, -⟩
          cases hok
          rfl
      · rw [outcome_ok, if_neg hres]
        -- the client gets an error in place of the response
        refine iff_of_false (by rintro ⟨⟩) ?_
        rintro ⟨-, hok, hres'⟩
        cases hok
        exact hres hres'
    | error e t₁ =>
      -- an error of the server is an error of `send`
      refine iff_of_false ?_ (by rintro ⟨-, ⟨⟩, -⟩)
      by_cases hres : (Message.result (.error e)).Fits
      · rw [outcome_error, if_pos hres]
        rintro ⟨⟩
      · rw [outcome_error, if_neg hres]
        rintro ⟨⟩
  · rw [if_neg hreq]
    exact iff_of_false (by rintro ⟨⟩) fun h => hreq h.1

/-- A request succeeds where the server's dispatch does and both messages fit. -/
theorem sendDirect_eq_ok {request : Request} {response : Response} {w w' : World Tree Buf} :
    (fs.connected srv os).sendDirect request w = .ok response w' ↔
      ∃ t', w' = { w with net := t' } ∧ (Message.request request).Fits ∧
        srv.dispatch os request w.net = .ok response t' ∧ (Message.result (.ok response)).Fits := by
  simp only [← send_exchange_eq_ok]
  unfold RpcFsContext.sendDirect
  rw [show (fs.connected srv os).exchange = srv.exchange os from rfl]
  cases hsend : send (srv.exchange os) request w.net with
  | ok response' t' =>
    constructor
    · intro h
      cases h
      exact ⟨t', rfl, rfl⟩
    · rintro ⟨_, rfl, hok⟩
      cases hok
      rfl
  | error e t' =>
    refine iff_of_false (by rintro ⟨⟩) ?_
    rintro ⟨_, -, ⟨⟩⟩

/-- Attributes that were fetched are those a `Stat` finds. -/
theorem fetchAttr_eq_ok {path : String} {attr : FileAttr} {w w' : World Tree Buf} :
    (fs.connected srv os).fetchAttr path w = .ok attr w' ↔
      w' = w ∧ (Message.request (.stat path)).Fits ∧ srv.statPath path w.net = .ok attr w.net ∧
        (Message.result (.ok (.attr attr))).Fits := by
  have hquiet : ∀ t', srv.statPath path w.net = .ok attr t' → t' = w.net := fun t' h =>
    RpcServer.quiet_statPath.state_eq h
  rw [RpcFsContext.fetchAttr_apply,
    show (fs.connected srv os).exchange = srv.exchange os from rfl]
  constructor
  · intro h
    cases hsend : send (srv.exchange os) (.stat path) w.net with
    | error e t' =>
      rw [hsend] at h
      cases h
    | ok response t' =>
      obtain ⟨hfits, hd, hres⟩ := send_exchange_eq_ok.mp hsend
      obtain ⟨attr', hstat, rfl⟩ := map_eq_ok.mp hd
      rw [hsend] at h
      cases h
      obtain rfl := hquiet t' hstat
      exact ⟨rfl, hfits, hstat, hres⟩
  · rintro ⟨rfl, hfits, hstat, hres⟩
    have hd : srv.dispatch os (.stat path) w'.net = .ok (.attr attr) w'.net :=
      map_eq_ok.mpr ⟨attr, hstat, rfl⟩
    rw [send_exchange_eq_ok.mpr ⟨hfits, hd, hres⟩]

/-- `get_file_info` succeeds with the attributes that the server has. -/
theorem getFileInfo_eq_ok {handle : Nat} {info : FileInfo} {w w' : World Tree Buf} :
    (fs.connected srv os).getFileInfo handle w = .ok info w' ↔
      w' = w ∧ ∃ attr, (Message.request (.stat (w.contexts handle).path)).Fits ∧
        srv.statPath (w.contexts handle).path w.net = .ok attr w.net ∧
        (Message.result (.ok (.attr attr))).Fits ∧ fillFileInfo attr = .ok info := by
  unfold RpcFsContext.getFileInfo
  rw [bind_of_ok (pathOf_apply handle w)]
  simp only [bind_eq_ok, fetchAttr_eq_ok, checked_eq_ok]
  constructor
  · rintro ⟨attr, w₁, ⟨rfl, hfits, hstat, hres⟩, hinfo, rfl⟩
    exact ⟨rfl, attr, hfits, hstat, hres, hinfo⟩
  · rintro ⟨rfl, attr, hfits, hstat, hres, hinfo⟩
    exact ⟨attr, w', ⟨rfl, hfits, hstat, hres⟩, hinfo, rfl⟩

/-- A `Write` that was answered reports the file that it left. -/
theorem writePayload_eq_ok {handle : Nat} {payload : List UInt8} {offset : UInt64} {toEof : Bool}
    {count : UInt32} {fileInfo : Option FileInfo} {w w' : World Tree Buf}
    (h : (fs.connected srv os).writePayload handle payload offset toEof w
      = .ok (count, fileInfo) w') :
    ∃ t' attr info, w' = { w with net := t' } ∧
      srv.writeFile os (w.contexts handle).path offset payload toEof w.net
        = .ok (.writeResult count attr) t' ∧
      fillFileInfo attr = .ok info ∧ fileInfo = some info := by
  unfold RpcFsContext.writePayload at h
  rw [bind_of_ok (pathOf_apply handle w)] at h
  obtain ⟨response, w₁, hsend, h⟩ := bind_eq_ok.mp h
  obtain ⟨t', rfl, -, hd, -⟩ := sendDirect_eq_ok.mp hsend
  cases response with
  | writeResult written attr =>
    obtain ⟨info, w₂, hinfo, hpure⟩ := bind_eq_ok.mp h
    obtain ⟨hfill, rfl⟩ := checked_eq_ok.mp hinfo
    cases hpure
    exact ⟨t', attr, info, rfl, hd, hfill, rfl⟩
  | attr _ | dirEntries _ | data _ | volumeInfo _ | empty => cases h

/-- A change of size that was answered reports the file that it left. -/
theorem setFileSize_eq_ok {handle : Nat} {newSize : UInt64} {allocation : Bool}
    {info : FileInfo} {w w' : World Tree Buf}
    (h : (fs.connected srv os).setFileSize handle newSize allocation w = .ok info w') :
    ∃ t' attr, w' = { w with net := t' } ∧
      srv.setLen os (w.contexts handle).path newSize allocation w.net = .ok attr t' ∧
      fillFileInfo attr = .ok info := by
  unfold RpcFsContext.setFileSize at h
  rw [bind_of_ok (pathOf_apply handle w)] at h
  obtain ⟨response, w₁, hsend, h⟩ := bind_eq_ok.mp h
  obtain ⟨t', rfl, -, hd, -⟩ := sendDirect_eq_ok.mp hsend
  obtain ⟨attr, hset, rfl⟩ := map_eq_ok.mp hd
  obtain ⟨hfill, rfl⟩ := checked_eq_ok.mp h
  exact ⟨t', attr, rfl, hset, hfill⟩

/-- The data of a `Write` that fits in a frame is shorter than 2^32 bytes. -/
theorem length_lt_of_fits {path : String} {offset : UInt64} {data : List UInt8} {toEof : Bool}
    (h : (Message.request (.write path offset data toEof)).Fits) : data.length < 2 ^ 32 := by
  have hput : Request.codec.put (.write path offset data toEof)
      = Postcard.Codec.u32.put 5 ++ (Postcard.Codec.string.put path ++
          (Postcard.Codec.u64.put offset ++
            ((Postcard.Codec.length.put (UInt64.ofNat data.length) ++
              data.flatMap Postcard.Codec.byte.put) ++ Postcard.Codec.bool.put toEof))) := rfl
  have hdata := Postcard.Codec.byte.length_le_flatMap data
  have hlen : (Request.codec.put (.write path offset data toEof)).length + 28 < 2 ^ 32 := h
  rw [hput] at hlen
  simp only [List.length_append] at hlen
  omega

/-! ### A small client -/

/-- Callbacks with nothing in their buffers. -/
def plainFs : RpcFsContext Tree Unit where
  exchange := fun _ _ => .ok (.ok .empty) treeWithFile
  dirBuffers := ⟨(), fun _ _ _ => none, fun _ => .ok (), fun _ _ _ => .ok (), fun _ _ b => (b, 0)⟩
  securityDescriptor := []
  volumeLabel := ""

/-- All handles are open on `f`. -/
def openOnFile : World Tree Unit where
  net := treeWithFile
  mountState := {}
  contexts _ := plainFs.newContext "f" .file

/-- The handle's path leads to the file. -/
theorem openOnFile_leads :
    ∃ path, RpcServer.serverAtR.Joins "f" path ∧
      Fs.Leads treeWithFile path (["r", "f"].map Utf8.encode) :=
  ⟨_, ⟨[Utf8.encode "f"], by decide, rfl⟩, by decide, by decide⟩

end Netfilum
