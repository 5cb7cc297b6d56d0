import Netfilum.Client.Link
import Netfilum.Rpc.Frame
import Netfilum.Server.Dispatch

namespace Netfilum

open Crypto Posix Program Rust

/-!
# Only sealed requests have an effect

`serve` and `handle_data` as functions of the bytes that arrive on each connection, for
any connections one after another.

* `RpcServer.serve` — the loop; a connection contributes the bytes that arrive before it
  ends or is given up, and how much of a response it takes.
* `Carries` — the bytes are a tag and a request sealed under the key, and anything behind.
* `requestOf_eq_some` — reading finds exactly these, if decryption is ideal.
* `serve_sealed` — the loop dispatches their requests in order, and nothing else changes
  the tree.
-/

/-- A connection that `serve` accepts: the bytes that arrive on it, the system when its
    request is dispatched, the nonce of the response, and how many bytes of this can be
    written. -/
structure Accepted where
  bytes : List UInt8
  os    : Os
  nonce : Nonce
  room  : Nat

/-- Write the response, or as much of it as the connection takes. -/
def Accepted.respond (cipher : RpcCipher) (c : Accepted) (response : RpcResult Response) :
    Except IoError Unit :=
  match writeMessage cipher RpcResult.codec c.nonce response [] with
  | .ok () bytes => if bytes.length ≤ c.room then .ok ()
    else .error ⟨.brokenPipe, "Broken pipe (os error 32)"⟩
  | .error e _   => .error e

namespace RpcServer

variable (srv : RpcServer) (cipher : RpcCipher)

/-- `self.dispatch(request)`: an error of the request is a response like any other. -/
def answer (os : Os) (request : Request) : EStateM IoError Tree (RpcResult Response) := fun t =>
  .ok (outcome (srv.dispatch os request t)) (final (srv.dispatch os request t))

/-- `handle_data`, on what follows the tag. -/
def handleData (c : Accepted) (stream : List UInt8) : EStateM IoError Tree Unit := do
  let request ← given (outcome (readMessage cipher Request.codec stream))
  let response ← srv.answer c.os request
  given (c.respond cipher response)

/-- One turn of the loop of `serve`: an error of `handle_data` is printed, a monitor's
    connection is handed to a thread of its own, any other is dropped. -/
def serveConnection (c : Accepted) (t : Tree) : Tree :=
  match readExact 1 c.bytes with
  | .error _ _     => t
  | .ok tag stream =>
    if tag = [connectionData] then final (srv.handleData cipher c stream t)
    -- the thread of a monitor only reads
    else if tag = [connectionMonitor] then t
    else t

/-- The loop of `serve`, for the connections it accepts. -/
def serve (connections : List Accepted) (t : Tree) : Tree :=
  connections.foldl (fun t c => srv.serveConnection cipher c t) t

end RpcServer

variable {srv : RpcServer} {cipher : RpcCipher} {t : Tree}

/-! ### Sealed requests -/

/-- A tag, a payload that was encrypted under the key, with its length, and anything behind;
    the payload decodes as a request. -/
def Carries (cipher : RpcCipher) (bytes : List UInt8) (request : Request) : Prop :=
  ∃ nonce plaintext payload rest, cipher.encrypt nonce plaintext = .ok payload ∧
    payload.length < 2 ^ 32 ∧ fromBytes Request.codec plaintext = .ok request ∧
    bytes = connectionData :: (toLeBytes (UInt32.ofNat payload.length) ++ payload ++ rest)

/-- The request that is read from the bytes of a connection. -/
def requestOf (cipher : RpcCipher) (bytes : List UInt8) : Option Request :=
  match readExact 1 bytes with
  | .error _ _     => none
  | .ok tag stream =>
    if tag = [connectionData] then (outcome (readMessage cipher Request.codec stream)).toOption
    else none

/-- With an ideal cipher the payloads that decrypt are those that were encrypted. -/
theorem decrypt_eq_ok (hideal : cipher.aead.Ideal) {payload plaintext : List UInt8} :
    cipher.decrypt payload = .ok plaintext ↔
      ∃ nonce, cipher.encrypt nonce plaintext = .ok payload := by
  constructor
  · intro h
    unfold RpcCipher.decrypt at h
    by_cases hlen : payload.length < nonceLen
    · rw [dif_pos hlen] at h
      cases h
    · rw [dif_neg hlen] at h
      have htake : (payload.take nonceLen).length = 12 :=
        List.length_take_of_le (Nat.le_of_not_lt hlen)
      refine ⟨⟨payload.take nonceLen, htake⟩, ?_⟩
      dsimp only at h
      cases hdec : cipher.aead.decrypt cipher.key ⟨payload.take nonceLen, htake⟩
          (payload.drop nonceLen) with
      | none => rw [hdec] at h; cases h
      | some text =>
        rw [hdec] at h
        cases h
        unfold RpcCipher.encrypt
        rw [hideal _ _ _ _ hdec]
        exact congrArg _ (List.take_append_drop nonceLen payload)
  · rintro ⟨nonce, h⟩
    exact cipher.decrypt_encrypt h

/-- Reading finds a request where the bytes carry one. -/
theorem requestOf_eq_some (hideal : cipher.aead.Ideal) {bytes : List UInt8} {request : Request} :
    requestOf cipher bytes = some request ↔ Carries cipher bytes request := by
  have hread : requestOf cipher bytes = some request ↔ ∃ stream rest,
      bytes = connectionData :: stream ∧
        readMessage cipher Request.codec stream = .ok request rest := by
    unfold requestOf
    cases bytes with
    | nil => simp [readExact]
    | cons tag stream =>
      have htag : readExact 1 (tag :: stream) = .ok [tag] stream := rfl
      rw [htag]
      dsimp only
      by_cases heq : tag = connectionData
      · subst heq
        rw [if_pos rfl]
        cases hread : readMessage cipher Request.codec stream with
        | error e s => simp [Except.toOption, hread]
        | ok r s => simp [Except.toOption, hread]
      · rw [if_neg (by simp [heq])]
        simp [heq]
  rw [hread]
  constructor
  · rintro ⟨stream, rest, rfl, h⟩
    obtain ⟨payload, plaintext, hlen, hdec, hvalue, rfl⟩ := (readMessage_eq_ok cipher _).mp h
    obtain ⟨nonce, henc⟩ := (decrypt_eq_ok hideal).mp hdec
    exact ⟨nonce, plaintext, payload, rest, henc, hlen, hvalue, rfl⟩
  · rintro ⟨nonce, plaintext, payload, rest, henc, hlen, hvalue, rfl⟩
    exact ⟨_, rest, rfl, (readMessage_eq_ok cipher _).mpr
      ⟨payload, plaintext, hlen, cipher.decrypt_encrypt henc, hvalue, rfl⟩⟩

/-! ### The loop -/

namespace RpcServer

/-- One connection: its request is dispatched, whatever becomes of the response. -/
theorem serveConnection_eq (srv : RpcServer) (cipher : RpcCipher) (c : Accepted) (t : Tree) :
    srv.serveConnection cipher c t = (requestOf cipher c.bytes).elim t
      fun request => final (srv.dispatch c.os request t) := by
  unfold serveConnection requestOf
  cases readExact 1 c.bytes with
  | error e s => rfl
  | ok tag stream =>
    dsimp only
    by_cases htag : tag = [connectionData]
    · rw [if_pos htag, if_pos htag]
      unfold handleData
      cases outcome (readMessage cipher Request.codec stream) with
      | error e =>
        rw [bind_of_error (given_of_error rfl t)]
        rfl
      | ok request =>
        -- the tree is the one that `dispatch` leaves, and the response does not change it
        have hanswer : srv.answer c.os request t = .ok (outcome (srv.dispatch c.os request t))
            (final (srv.dispatch c.os request t)) := rfl
        rw [bind_of_ok (given_of_ok rfl t), bind_of_ok hanswer]
        exact Quiet.observe _ _
    · rw [if_neg htag, if_neg htag, ite_self]
      rfl

/-- The requests that the connections carry, each with the system at its dispatch. -/
def sealedRequests (cipher : RpcCipher) (connections : List Accepted) : List (Os × Request) :=
  connections.filterMap fun c => (requestOf cipher c.bytes).map (c.os, ·)

/-- The loop dispatches the requests that it reads, one after another. -/
theorem serve_eq_foldl (srv : RpcServer) (cipher : RpcCipher) (connections : List Accepted)
    (t : Tree) : srv.serve cipher connections t = (sealedRequests cipher connections).foldl
      (fun t request => final (srv.dispatch request.1 request.2 t)) t := by
  unfold serve sealedRequests
  induction connections generalizing t with
  | nil => rfl
  | cons c connections ih =>
    rw [List.foldl_cons, ih, serveConnection_eq]
    cases hrequest : requestOf cipher c.bytes with
    | none => rw [List.filterMap_cons_none (by rw [hrequest]; rfl)]; rfl
    | some request => rw [List.filterMap_cons_some (by rw [hrequest]; rfl)]; rfl

/-- **Bytes that were not sealed under the key have no effect.**  Whatever bytes arrive on
    whatever connections, the tree afterwards is the one that the sealed requests lead to,
    dispatched in the order in which their connections were accepted; a connection that
    carries none is as good as absent. -/
theorem serve_sealed (srv : RpcServer) (cipher : RpcCipher) (hideal : cipher.aead.Ideal) :
    (∀ connections t, srv.serve cipher connections t
      = (sealedRequests cipher connections).foldl
          (fun t request => final (srv.dispatch request.1 request.2 t)) t)
    ∧ (∀ bytes request, requestOf cipher bytes = some request ↔ Carries cipher bytes request)
    ∧ ∀ before c after t, (∀ request, ¬ Carries cipher c.bytes request) →
      srv.serve cipher (before ++ c :: after) t = srv.serve cipher (before ++ after) t := by
  refine ⟨serve_eq_foldl srv cipher, fun _ _ => requestOf_eq_some hideal, ?_⟩
  intro before c after t hnone
  have hrequest : requestOf cipher c.bytes = none :=
    Option.eq_none_iff_forall_ne_some.mpr fun request h =>
      hnone request ((requestOf_eq_some hideal).mp h)
  unfold serve
  rw [List.foldl_append, List.foldl_append, List.foldl_cons, serveConnection_eq, hrequest]
  rfl

/-- An unknown tag, a payload that is cut, and a `RemoveFile "f"` with a byte behind it: only
    the last is carried out, and the file is gone. -/
theorem serve_sealed_remove :
    let os := Os.atTime ⟨1, 0⟩
    let t := serverAtR.serve removeCipher [⟨[7, 1, 2], os, nonceEnding 3, 0⟩,
        ⟨connectionData :: (frameOf removeRecord).dropLast, os, nonceEnding 3, 100⟩,
        ⟨connectionData :: (frameOf removeRecord ++ [9]), os, nonceEnding 3, 10⟩] treeWithFile
    t = final (serverAtR.dispatch os (.removeFile "f") treeWithFile) ∧
      (treeWithFile.look (["r", "f"].map Utf8.encode)).isSome ∧
      t.look (["r", "f"].map Utf8.encode) = none := by
  intro os t
  have hideal : removeCipher.aead.Ideal := Aead.ideal_recorded _
  have ht : t = final (serverAtR.dispatch os (.removeFile "f") treeWithFile) := by
    show serverAtR.serve removeCipher _ treeWithFile = _
    rw [(serve_sealed serverAtR removeCipher hideal).1]
    rfl
  refine ⟨ht, by decide, ?_⟩
  rw [ht]
  decide

end RpcServer

end Netfilum
