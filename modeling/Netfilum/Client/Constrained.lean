import Netfilum.Client.Link
import Netfilum.Server.Contents

namespace Netfilum

open Posix Program Rust

/-!
# Constrained writes

With constrained I/O, `write` asks for the size of the file and sends only what lies below
it.  The size and the write are two requests, and the server may serve others in between.

* `RpcServer.interleaved` — the transport, with the requests of others behind an exchange.
* `Constrained` — the file did not grow, nothing around the buffer's place was changed, and
    what was written is what was counted.
* `Overruns` — the write reaches past the end that the file has by then.
* `constrained_write_iff` — a write is constrained just when it does not overrun.
-/

/-- Requests of others, each with the system at its moment. -/
abbrev Others := List (Os × Request)

/-- Serve the requests of others, one after another. -/
def RpcServer.serveAll (srv : RpcServer) (others : Others) (t : Tree) : Tree :=
  others.foldl (fun t call => final (srv.dispatch call.1 call.2 t)) t

/-- Behind an exchange, the pending requests of others are served. -/
def RpcServer.behind {ε α : Type} (srv : RpcServer) (others : Others) :
    EStateM.Result ε Tree α → EStateM.Result ε (Tree × Others) α
  | .ok a t    => .ok a (srv.serveAll others t, [])
  | .error e t => .error e (srv.serveAll others t, [])

/-- An exchange on a connection to a server that others use. -/
def RpcServer.interleaved (srv : RpcServer) (os : Os) : Exchange (Tree × Others) :=
  fun request net => srv.behind net.2 (srv.exchange os request net.1)

variable {Buf : Type}

/-- The callbacks, connected to a server that others use. -/
def RpcFsContext.interleaved (fs : RpcFsContext Tree Buf) (srv : RpcServer) (os : Os) :
    RpcFsContext (Tree × Others) Buf where
  exchange           := srv.interleaved os
  dirBuffers         := fs.dirBuffers
  securityDescriptor := fs.securityDescriptor
  volumeLabel        := fs.volumeLabel

/-- A write of `buffer` at `offset` to a file that held `content` kept to it: `after` is what
    the file holds then, and `result` what the call returned. -/
structure Constrained (content : List UInt8) (offset : UInt64) (buffer after : List UInt8)
    (result : Except Stop (UInt32 × Option FileInfo)) : Prop where
  size    : after.length ≤ content.length
  before  : after.take offset.toNat = content.take offset.toNat
  behind  : after.drop (offset.toNat + buffer.length) = content.drop (offset.toNat + buffer.length)
  counted : ∀ count fileInfo, result = .ok (count, fileInfo) →
    (count = 0 ∨ offset.toNat + count.toNat ≤ content.length) ∧
      after = content.take offset.toNat ++ buffer.take count.toNat
        ++ content.drop (offset.toNat + count.toNat)

/-- A `Write` of this payload adds to a file that holds `content`: some of it is written, and
    at the end of the file or past it. -/
def Extends (os : Os) (content : List UInt8) (offset : UInt64) (payload : List UInt8)
    (toEof : Bool) : Prop :=
  let taken := RpcServer.taken os content offset payload toEof
  taken ≠ [] ∧ (toEof = true ∨ content.length < offset.toNat + taken.length)

/-- The `Stat` finds room in the tree `t`, and the `Write` that it leads to fits in a frame and
    adds to the file, which by then holds `content`. -/
def Overruns (srv : RpcServer) (os : Os) (t : Tree) (path : String) (buffer : List UInt8)
    (offset : UInt64) (toEof : Bool) (content : List UInt8) : Prop :=
  ∃ p q e, srv.Existing t path p q ∧ t.look q = some e ∧ offset < lenOf e ∧
    let payload := buffer.take (lenOf e - offset).toNat
    (Message.request (.write path offset payload toEof)).Fits ∧
      Extends os content offset payload toEof

variable {fs : RpcFsContext Tree Buf} {srv : RpcServer} {os : Os} {t : Tree} {path : String}
  {q : Loc} {content buffer payload : List UInt8} {offset : UInt64} {toEof : Bool} {handle : Nat}

/-! ### The bytes -/

/-- A file that is left as it was. -/
theorem constrained_same {result : Except Stop (UInt32 × Option FileInfo)}
    (hcount : ∀ count fileInfo, result = .ok (count, fileInfo) → count = 0) :
    Constrained content offset buffer content result where
  size := Nat.le_refl _
  before := rfl
  behind := rfl
  counted count fileInfo hok := by
    obtain rfl := hcount count fileInfo hok
    simp

/-- Bytes that replace others, within the file. -/
theorem constrained_overwrite {taken : List UInt8} {result : Except Stop (UInt32 × Option FileInfo)}
    (htaken : taken <+: buffer) (hle : offset.toNat + taken.length ≤ content.length)
    (hcount : ∀ count fileInfo, result = .ok (count, fileInfo) → count.toNat = taken.length) :
    Constrained content offset buffer (Fs.overwrite content offset.toNat taken) result := by
  have hshort := htaken.length_le
  have hbefore : (content.take offset.toNat).length = offset.toNat := by
    rw [List.length_take]
    omega
  rw [Fs.overwrite_of_le hle]
  refine ⟨?_, ?_, ?_, fun count fileInfo hok => ?_⟩
  · simp only [List.length_append, List.length_drop, hbefore]
    omega
  · rw [List.append_assoc, List.take_left' hbefore]
  · -- behind the buffer: the bytes before it and the new ones are dropped whole
    rw [List.drop_append, List.drop_eq_nil_of_le (by rw [List.length_append]; omega),
      List.nil_append, List.drop_drop]
    congr 1
    rw [List.length_append]
    omega
  · rw [hcount count fileInfo hok, ← List.prefix_iff_eq_take.mp htaken]
    exact ⟨.inr hle, rfl⟩

/-- The bytes that a write leaves, and what it may count. -/
theorem constrained_written_iff (os : Os) (content : List UInt8) (offset : UInt64) (toEof : Bool)
    {result : Except Stop (UInt32 × Option FileInfo)}
    (hpre : payload <+: buffer) (hlen : payload.length < 2 ^ 32)
    (hcount : ∀ count fileInfo, result = .ok (count, fileInfo) →
      count = UInt32.ofNat payload.length ∧
        RpcServer.taken os content offset payload toEof = payload) :
    Constrained content offset buffer (RpcServer.written os content offset payload toEof) result ↔
      ¬ Extends os content offset payload toEof := by
  unfold RpcServer.written Extends
  have htaken : RpcServer.taken os content offset payload toEof <+: buffer :=
    (List.take_prefix _ _).trans hpre
  generalize RpcServer.taken os content offset payload toEof = taken at *
  by_cases hnil : taken = []
  · -- nothing is written
    rw [if_pos hnil]
    refine iff_of_true (constrained_same fun count fileInfo hok => ?_) fun hext => hext.1 hnil
    obtain ⟨rfl, hwhole⟩ := hcount count fileInfo hok
    rw [← hwhole, hnil]
    rfl
  · have hpos : 0 < taken.length := List.length_pos_iff.mpr hnil
    rw [if_neg hnil]
    constructor
    · -- at the end of the file, or past it, the file has grown
      rintro h ⟨-, hext⟩
      have hsize := h.size
      rw [Fs.length_overwrite] at hsize
      unfold RpcServer.writePos at hsize
      split at hsize
      · omega
      · rename_i hnot
        have hpast := hext.resolve_left hnot
        omega
    · intro hnot
      have hor : ¬ (toEof = true ∨ content.length < offset.toNat + taken.length) :=
        fun hext => hnot ⟨hnil, hext⟩
      rw [not_or] at hor
      obtain rfl := Bool.eq_false_iff.mpr hor.1
      refine constrained_overwrite htaken (by omega) fun count fileInfo hok => ?_
      obtain ⟨rfl, rfl⟩ := hcount count fileInfo hok
      exact UInt32.toNat_ofNat_of_lt' hlen

/-! ### The two requests -/

/-- A request is served before those of the others that come behind it. -/
theorem send_interleaved (request : Request) (net : Tree × Others) :
    send (srv.interleaved os) request net
      = srv.behind net.2 (send (srv.exchange os) request net.1) := by
  unfold send
  rw [bind_apply, bind_apply]
  unfold RpcServer.interleaved
  cases srv.exchange os request net.1 with
  | error e t => rfl
  | ok result t =>
    cases result with
    | ok response => rfl
    | error e => rfl

/-- The attributes are those that the `Stat` found, and the requests of others are served
    whether it finds any or not. -/
theorem fetchAttr_interleaved (fs : RpcFsContext Tree Buf) (srv : RpcServer) (os : Os)
    (path : String) (w : World (Tree × Others) Buf) :
    (∃ p q e, srv.Existing w.net.1 path p q ∧ w.net.1.look q = some e ∧
      (fs.interleaved srv os).fetchAttr path w
        = .ok (attrOf e) { w with net := (srv.serveAll w.net.2 w.net.1, []) }) ∨
    ∃ stop w', (fs.interleaved srv os).fetchAttr path w = .error stop w' ∧
      w'.net = (srv.serveAll w.net.2 w.net.1, []) ∧
      ∀ p q e, srv.Existing w.net.1 path p q → w.net.1.look q = some e →
        ¬ (Message.request (.stat path)).Fits := by
  rw [RpcFsContext.fetchAttr_apply, show (fs.interleaved srv os).exchange
    = srv.interleaved os from rfl, send_interleaved]
  have hquiet : final (srv.dispatch os (.stat path) w.net.1) = w.net.1 :=
    Quiet.map RpcServer.quiet_statPath w.net.1
  rcases send_exchange srv os (.stat path) w.net.1 with
    ⟨response, t', -, hd, hsend⟩ | ⟨e, t', ht', hsend⟩
  · obtain ⟨attr, hstat, rfl⟩ := map_eq_ok.mp hd
    obtain ⟨⟨p, q, e, hex, he, rfl⟩, rfl⟩ := RpcServer.statPath_eq_ok.mp hstat
    rw [hsend]
    exact .inl ⟨p, q, e, hex, he, rfl⟩
  · rw [hquiet, or_self] at ht'
    subst ht'
    rw [hsend]
    refine .inr ⟨_, _, rfl, rfl, fun p q e₁ hex he hfits => ?_⟩
    -- a `Stat` that fits and finds an object is answered
    have hstat : srv.statPath path w.net.1 = .ok (attrOf e₁) w.net.1 :=
      RpcServer.statPath_eq_ok.mpr ⟨⟨p, q, e₁, hex, he, rfl⟩, rfl⟩
    have hd : srv.dispatch os (.stat path) w.net.1 = .ok (.attr (attrOf e₁)) w.net.1 :=
      map_eq_ok.mpr ⟨attrOf e₁, hstat, rfl⟩
    rw [send_exchange_eq_ok.mpr ⟨hfits, hd, Message.fits_attr _⟩] at hsend
    cases hsend

/-- Where a `Write` fits in a frame, a `Stat` of the same path does. -/
theorem fits_stat_of_write (h : (Message.request (.write path offset payload toEof)).Fits) :
    (Message.request (.stat path)).Fits :=
  Message.fits_of_fields h (Postcard.Codec.length_put_fst_le _ _ path (offset, payload, toEof))

/-- What the `Write` does to the file, and what a call that succeeds counts. -/
theorem writePayload_interleaved (fs : RpcFsContext Tree Buf) (os : Os) (payload : List UInt8)
    (offset : UInt64) (toEof : Bool) {w : World (Tree × Others) Buf} (hnet : w.net = (t, []))
    (hex : ∃ p, srv.Existing t (w.contexts handle).path p q)
    (hc : Fs.dataAt t q = some content) :
    let request : Request := .write (w.contexts handle).path offset payload toEof
    let result := (fs.interleaved srv os).writePayload handle payload offset toEof w
    (Fs.dataAt (final result).net.1 q = some (if (Message.request request).Fits then
      RpcServer.written os content offset payload toEof else content)) ∧
    ∀ count fileInfo, outcome result = .ok (count, fileInfo) →
      (Message.request request).Fits ∧ count = UInt32.ofNat payload.length ∧
        RpcServer.taken os content offset payload toEof = payload := by
  intro request result
  have hsend : send (fs.interleaved srv os).exchange request w.net
      = srv.behind [] (send (srv.exchange os) request t) := by
    rw [show (fs.interleaved srv os).exchange = srv.interleaved os from rfl, send_interleaved, hnet]
  -- the file holds what the request leaves, whether or not it is answered
  have hleaves : Fs.dataAt (final (send (srv.exchange os) request t)) q
      = some (if (Message.request request).Fits then
          RpcServer.written os content offset payload toEof else content) := by
    rw [final_send_exchange]
    split
    · exact RpcServer.dataAt_writeFile hex hc
    · exact hc
  cases hx : send (srv.exchange os) request t with
  | error e t' =>
    rw [hx] at hsend hleaves
    have hrun : result = .error (.err (.io e)) { w with net := (t', []) } :=
      RpcFsContext.writePayload_of_error _ hsend
    rw [hrun]
    exact ⟨hleaves, fun count fileInfo hok => by cases hok⟩
  | ok response t' =>
    obtain ⟨hfits, hd, -⟩ := send_exchange_eq_ok.mp hx
    obtain ⟨p, q', content', attr, hex', hc', -, hmax, -, rfl⟩ := RpcServer.writeFile_eq_ok hd
    obtain ⟨p', hex⟩ := hex
    obtain ⟨-, rfl⟩ := hex'.unique hex
    rw [hc] at hc'
    cases hc'
    -- the server answers only when it has written all of the payload
    have htaken : RpcServer.taken os content offset payload toEof = payload := by
      refine List.take_of_length_le ?_
      by_cases hnil : payload = []
      · rw [hnil]
        exact Nat.zero_le _
      · have hfit := hmax hnil
        omega
    rw [hx] at hsend hleaves
    have hrun : result = ((fun fileInfo => (UInt32.ofNat payload.length, some fileInfo)) <$>
        checked (fillFileInfo attr)) { w with net := (t', []) } :=
      RpcFsContext.writePayload_of_ok _ hsend
    rw [hrun, map_apply]
    cases hinfo : fillFileInfo attr with
    | error message => exact ⟨hleaves, fun count fileInfo hok => by cases hok⟩
    | ok info =>
      refine ⟨hleaves, fun count fileInfo hok => ?_⟩
      cases hok
      exact ⟨hfits, rfl, htaken⟩

/-- What a `Stat` finds is found once. -/
theorem overruns_iff {p : PathBuf} {e : Entry} (hex : srv.Existing t path p q)
    (he : t.look q = some e) :
    Overruns srv os t path buffer offset toEof content ↔ offset < lenOf e ∧
      (Message.request (.write path offset (buffer.take (lenOf e - offset).toNat) toEof)).Fits ∧
      Extends os content offset (buffer.take (lenOf e - offset).toNat) toEof := by
  constructor
  · rintro ⟨p', q', e', hex', he', hover⟩
    obtain ⟨-, rfl⟩ := hex'.unique hex
    rw [he] at he'
    cases he'
    exact hover
  · intro hover
    exact ⟨p, q, e, hex, he, hover⟩

/-- **Constrained writes.**  Whatever others do between the two requests, a constrained write
    keeps to the file as it is when its `Write` is dispatched, if and only if the `Write` does
    not overrun it. -/
theorem constrained_write_iff (fs : RpcFsContext Tree Buf) (srv : RpcServer) (os : Os)
    (handle : Nat) (buffer : List UInt8) (offset : UInt64) (toEof : Bool)
    (w : World (Tree × Others) Buf) (q : Loc) (content : List UInt8)
    (hex : ∃ p, srv.Existing (srv.serveAll w.net.2 w.net.1) (w.contexts handle).path p q)
    (hc : Fs.dataAt (srv.serveAll w.net.2 w.net.1) q = some content) :
    let result := (fs.interleaved srv os).write handle buffer offset toEof true w
    (∃ after, Fs.dataAt (final result).net.1 q = some after ∧
        Constrained content offset buffer after (outcome result)) ↔
      ¬ Overruns srv os w.net.1 (w.contexts handle).path buffer offset toEof content := by
  intro result
  have hrun : result = ((fs.interleaved srv os).fetchAttr (w.contexts handle).path >>= fun attr =>
      if attr.size ≤ offset then return (0, none)
      else (fs.interleaved srv os).writePayload handle (buffer.take (attr.size - offset).toNat)
        offset toEof) w := rfl
  rcases fetchAttr_interleaved fs srv os (w.contexts handle).path w with
    ⟨p, q₁, e, hex₁, he, hfetch⟩ | ⟨stop, w', hfetch, hnet, hlost⟩
  · rw [overruns_iff hex₁ he]
    rw [bind_of_ok hfetch, show (attrOf e).size = lenOf e from rfl] at hrun
    by_cases hend : lenOf e ≤ offset
    · -- at or past the end of the file, no `Write` is sent
      rw [if_pos hend] at hrun
      rw [hrun]
      refine iff_of_true ⟨content, hc, constrained_same fun count fileInfo hok => ?_⟩
        fun hover => absurd hover.1 (UInt64.not_lt.mpr hend)
      cases hok
      rfl
    · rw [if_neg hend] at hrun
      -- the others had their turn, and now the payload is sent
      obtain ⟨hafter, hcount⟩ := writePayload_interleaved fs os
        (buffer.take (lenOf e - offset).toNat) offset toEof
        (w := { w with net := (srv.serveAll w.net.2 w.net.1, []) }) rfl hex hc
      rw [← hrun] at hafter hcount
      rw [hafter]
      by_cases hfits : (Message.request (.write (w.contexts handle).path offset
          (buffer.take (lenOf e - offset).toNat) toEof)).Fits
      · rw [if_pos hfits]
        have hbytes := constrained_written_iff os content offset toEof
          (List.take_prefix (lenOf e - offset).toNat buffer)
          (length_lt_of_fits hfits) fun count fileInfo hok => (hcount count fileInfo hok).2
        constructor
        · rintro ⟨after, hafter, hconstrained⟩ ⟨-, -, hextends⟩
          cases hafter
          exact hbytes.mp hconstrained hextends
        · intro hnot
          exact ⟨_, rfl, hbytes.mpr fun hextends =>
            hnot ⟨UInt64.not_le.mp hend, hfits, hextends⟩⟩
      · rw [if_neg hfits]
        -- too long for a frame: nothing is sent
        refine iff_of_true ⟨content, rfl, constrained_same fun count fileInfo hok => ?_⟩
          fun hover => hfits hover.2.1
        exact absurd (hcount count fileInfo hok).1 hfits
  · -- no size, no write
    rw [bind_of_error hfetch] at hrun
    rw [hrun]
    refine iff_of_true ⟨content, ?_, constrained_same fun count fileInfo hok => by cases hok⟩ ?_
    · show Fs.dataAt w'.net.1 q = some content
      rw [hnet]
      exact hc
    · rintro ⟨p, q₁, e, hex₁, he, -, hfits, -⟩
      exact hlost p q₁ e hex₁ he (fits_stat_of_write hfits)

/-! ### Writes to a file of three bytes -/

/-- All handles are open on `f`, and others have requests to make. -/
def sharedOnFile (others : Others) : World (Tree × Others) Unit where
  net := (treeWithFile, others)
  mountState := {}
  contexts _ := plainFs.newContext "f" .file

/-- A constrained write to `f` at second 2. -/
def writeToF (others : Others) (buffer : List UInt8) (offset : UInt64) (toEof : Bool) :
    EStateM.Result Stop (World (Tree × Others) Unit) (UInt32 × Option FileInfo) :=
  (plainFs.interleaved .serverAtR (.atTime ⟨2, 0⟩)).write 0 buffer offset toEof true
    (sharedOnFile others)

/-- Someone cuts `f` off after its first byte. -/
def cutting : Others := [(.atTime ⟨1, 0⟩, .setLen "f" 1 false)]

/-- With `write_to_eof`, the clipped buffer is appended; and it lands behind the end when the
    file was cut off since its size was asked for. -/
theorem constrained_write_grows :
    (Fs.dataAt treeWithFile (["r", "f"].map Utf8.encode) = some [1, 2, 3] ∧
      ¬ ∃ after, Fs.dataAt (final (writeToF [] [9] 0 true)).net.1 (["r", "f"].map Utf8.encode)
        = some after ∧ Constrained [1, 2, 3] 0 [9] after (outcome (writeToF [] [9] 0 true))) ∧
    Fs.dataAt (RpcServer.serverAtR.serveAll cutting treeWithFile) (["r", "f"].map Utf8.encode)
      = some [1] ∧
      ¬ ∃ after, Fs.dataAt (final (writeToF cutting [8, 9] 1 false)).net.1
        (["r", "f"].map Utf8.encode) = some after ∧
          Constrained [1] 1 [8, 9] after (outcome (writeToF cutting [8, 9] 1 false)) := by
  refine ⟨⟨by decide, ?_⟩, by decide, ?_⟩
  · rintro ⟨after, hafter, hconstrained⟩
    have hgrown : Fs.dataAt (final (writeToF [] [9] 0 true)).net.1 (["r", "f"].map Utf8.encode)
        = some [1, 2, 3, 9] := by decide
    rw [hgrown] at hafter
    cases hafter
    exact absurd hconstrained.size (by decide)
  · rintro ⟨after, hafter, hconstrained⟩
    have hgrown : Fs.dataAt (final (writeToF cutting [8, 9] 1 false)).net.1
        (["r", "f"].map Utf8.encode) = some [1, 8, 9] := by decide
    rw [hgrown] at hafter
    cases hafter
    exact absurd hconstrained.size (by decide)

/-- A constrained write that reaches beyond the end, with nobody between. -/
theorem constrained_write_f :
    (∃ after, Fs.dataAt (final (writeToF [] [8, 9] 2 false)).net.1 (["r", "f"].map Utf8.encode)
        = some after ∧
        Constrained [1, 2, 3] 2 [8, 9] after (outcome (writeToF [] [8, 9] 2 false))) ↔
      ¬ Overruns .serverAtR (.atTime ⟨2, 0⟩) treeWithFile "f" [8, 9] 2 false [1, 2, 3] :=
  constrained_write_iff plainFs .serverAtR (.atTime ⟨2, 0⟩) 0 [8, 9] 2 false (sharedOnFile [])
    _ _ ⟨_, ⟨[Utf8.encode "f"], by decide, rfl⟩, by decide, by decide, by decide⟩ (by decide)

end Netfilum
