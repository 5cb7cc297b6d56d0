import Mathlib.Logic.Function.Basic
import Mathlib.Logic.Relation
import Netfilum.Client.Callbacks
import Netfilum.Rpc.Frame
import Netfilum.Server.Dispatch

namespace Netfilum

open Crypto Posix Program Rust

/-!
# Many callers, one serving thread

`RpcClient::send` and `RpcServer::serve` with the network between them, byte by byte: any
number of peers, each on a connection of its own, and one thread that serves the
connections in the order in which they were established.

* `writeRequest` — what `send` writes.
* `Peer` — a caller of `send`, or anyone else who connects; `Serving` — where the thread
  stands in its loop; `System` — all of it, with the history of what happened.
* `Step` — one step of a peer, of the network or of the thread.  Bytes arrive in any
  portions, any number of them, and both sides may give a connection up between any two.
-/

/-- `RpcClient::send` writes a tag and the request. -/
def writeRequest (cipher : RpcCipher) (nonce : Nonce) (request : Request) :
    EStateM IoError (List UInt8) Unit := do
  writeAll [connectionData]
  writeMessage cipher Request.codec nonce request

/-- What is at the other end of a connection: a call of `send`, with the nonce drawn for it,
    or anything else (a monitor, for one), with the bytes it will write. -/
inductive Peer where
  | send (nonce : Nonce) (request : Request)
  | other (bytes : List UInt8)

/-- All that a peer writes if nothing stops it. -/
def Peer.script (cipher : RpcCipher) : Peer → List UInt8
  | .send nonce request => final (writeRequest cipher nonce request [])
  | .other bytes        => bytes

/-- How far a peer has got. -/
inductive Stage where
  | idle
  | writing
  | waiting
  | returned (result : Except IoError (RpcResult Response))

/-- The two directions of a connection, each with the bytes that were written and those of
    them that have arrived, and the timeouts the server has set, in seconds. -/
structure Connection where
  sent         : List UInt8 := []
  arrived      : List UInt8 := []
  answered     : List UInt8 := []
  received     : List UInt8 := []
  readTimeout  : Option Nat := none
  writeTimeout : Option Nat := none

/-- Where the serving thread stands in `serve` and `handle_data`. -/
inductive Serving (ι : Type) where
  | accepting
  | readingTag (i : ι)
  | readingRequest (i : ι)
  | dispatching (i : ι) (request : Request)
  | writingResponse (i : ι) (bytes : List UInt8)
  | stopped

/-- What the history records: connections and the return of calls, the beginning and the end
    of every dispatch, this with the result and the tree it leaves. -/
inductive Event (ι : Type) where
  | connected (i : ι)
  | began (i : ι) (request : Request)
  | ended (i : ι) (result : EStateM.Result RpcError Tree Response)
  | returned (i : ι) (result : Except IoError (RpcResult Response))

/-- The peers, their connections, the connections nobody has accepted yet, the serving
    thread and its tree. -/
structure System (ι : Type) where
  stage      : ι → Stage
  connection : ι → Connection
  queue      : List ι
  serving    : Serving ι
  tree       : Tree
  history    : List (Event ι)

namespace System

variable {ι : Type}

/-- Nobody has connected yet. -/
def start (tree : Tree) : System ι where
  stage := fun _ => .idle
  connection := fun _ => {}
  queue := []
  serving := .accepting
  tree
  history := []

variable [DecidableEq ι] (s : System ι)

def setStage (i : ι) (stage : Stage) : System ι :=
  { s with stage := Function.update s.stage i stage }

def setConnection (i : ι) (connection : Connection) : System ι :=
  { s with connection := Function.update s.connection i connection }

/-- The call of a peer ends. -/
def returns (i : ι) (result : Except IoError (RpcResult Response)) : System ι :=
  { s.setStage i (.returned result) with history := s.history ++ [.returned i result] }

end System

section

variable {ι : Type} [DecidableEq ι] (srv : RpcServer) (cipher : RpcCipher) (peer : ι → Peer)

/-- One step of a peer, of the network, or of the serving thread. -/
inductive Step : System ι → System ι → Prop
  /-- `TcpStream::connect`: the connection joins the queue of the listener. -/
  | connect {s} (i : ι) (hidle : s.stage i = .idle) :
    Step s { s.setStage i .writing with
      queue := s.queue ++ [i], history := s.history ++ [.connected i] }
  /-- The peer writes some more bytes. -/
  | write {s} (i : ι) {bytes : List UInt8} (hstage : s.stage i = .writing)
    (hmore : (s.connection i).sent <+: bytes) (hbytes : bytes <+: (peer i).script cipher) :
    Step s (s.setConnection i { s.connection i with sent := bytes })
  /-- The request of a `send` is written; it waits for the answer. -/
  | written {s} (i : ι) {nonce : Nonce} {request : Request} (hstage : s.stage i = .writing)
    (hpeer : peer i = .send nonce request)
    (hok : writeRequest cipher nonce request [] = .ok () (s.connection i).sent) :
    Step s (s.setStage i .waiting)
  /-- `send` has read the answer and returns. -/
  | receive {s} (i : ι) {answer : RpcResult Response} {rest : List UInt8}
    (hstage : s.stage i = .waiting)
    (hread : readMessage cipher RpcResult.codec (s.connection i).received = .ok answer rest) :
    Step s (s.returns i (.ok answer))
  /-- The connection cannot be made, writing or reading fails, is cut or takes too long. -/
  | fail {s} (i : ι) (e : IoError) (hstage : ∀ result, s.stage i ≠ .returned result) :
    Step s (s.returns i (.error e))
  /-- Some more bytes arrive at the server. -/
  | carry {s} (i : ι) {bytes : List UInt8} (hmore : (s.connection i).arrived <+: bytes)
    (hbytes : bytes <+: (s.connection i).sent) :
    Step s (s.setConnection i { s.connection i with arrived := bytes })
  /-- Some more bytes arrive at the peer. -/
  | carryBack {s} (i : ι) {bytes : List UInt8} (hmore : (s.connection i).received <+: bytes)
    (hbytes : bytes <+: (s.connection i).answered) :
    Step s (s.setConnection i { s.connection i with received := bytes })
  /-- `listener.accept()`. -/
  | accept {s} (i : ι) {queue : List ι} (hserving : s.serving = .accepting)
    (hqueue : s.queue = i :: queue) :
    Step s { s with serving := .readingTag i, queue }
  /-- `listener.accept()` fails, which ends `serve`. -/
  | acceptFails {s} (hserving : s.serving = .accepting) : Step s { s with serving := .stopped }
  /-- The tag cannot be read. -/
  | tagFails {s} (i : ι) (hserving : s.serving = .readingTag i) :
    Step s { s with serving := .accepting }
  /-- `CONNECTION_MONITOR`: the connection goes to a thread of its own, which reads it until it
      ends. -/
  | tagMonitor {s} (i : ι) {rest : List UInt8} (hserving : s.serving = .readingTag i)
    (htag : readExact 1 (s.connection i).arrived = .ok [connectionMonitor] rest) :
    Step s { s with serving := .accepting }
  /-- Any other tag: the connection is dropped. -/
  | tagOther {s} (i : ι) {tag : UInt8} {rest : List UInt8} (hserving : s.serving = .readingTag i)
    (htag : readExact 1 (s.connection i).arrived = .ok [tag] rest) (hne : tag ≠ connectionData)
    (hmonitor : tag ≠ connectionMonitor) :
    Step s { s with serving := .accepting }
  /-- `CONNECTION_DATA`: `handle_data` sets the timeouts. -/
  | tagData {s} (i : ι) {rest : List UInt8} (hserving : s.serving = .readingTag i)
    (htag : readExact 1 (s.connection i).arrived = .ok [connectionData] rest) :
    Step s { s.setConnection i
      { s.connection i with readTimeout := some 5, writeTimeout := some 5 } with
        serving := .readingRequest i }
  /-- The request cannot be read, or is none. -/
  | requestFails {s} (i : ι) (hserving : s.serving = .readingRequest i) :
    Step s { s with serving := .accepting }
  /-- The request is read from behind the tag. -/
  | request {s} (i : ι) {tag rest rest' : List UInt8} {request : Request}
    (hserving : s.serving = .readingRequest i)
    (htag : readExact 1 (s.connection i).arrived = .ok tag rest)
    (hread : readMessage cipher Request.codec rest = .ok request rest') :
    Step s { s with
      serving := .dispatching i request, history := s.history ++ [.began i request] }
  /-- `dispatch` returns; `write_message` has a response to write, or fails at once. -/
  | dispatch {s} (i : ι) {request : Request} (os : Os) (nonce : Nonce)
    (hserving : s.serving = .dispatching i request) :
    Step s { s with
      serving := .writingResponse i (final (writeMessage cipher RpcResult.codec nonce
        (outcome (srv.dispatch os request s.tree)) []))
      tree := final (srv.dispatch os request s.tree)
      history := s.history ++ [.ended i (srv.dispatch os request s.tree)] }
  /-- Some more bytes of the response are written. -/
  | respond {s} (i : ι) {bytes all : List UInt8} (hserving : s.serving = .writingResponse i all)
    (hmore : (s.connection i).answered <+: bytes) (hbytes : bytes <+: all) :
    Step s (s.setConnection i { s.connection i with answered := bytes })
  /-- The response is written, or cannot be. -/
  | responded {s} (i : ι) {all : List UInt8} (hserving : s.serving = .writingResponse i all) :
    Step s { s with serving := .accepting }

/-- The states that a run reaches. -/
abbrev Reaches : System ι → System ι → Prop := Relation.ReflTransGen (Step srv cipher peer)

end

end Netfilum
