import Netfilum.Client.Link
import Netfilum.Connections.Serve
import Netfilum.Lib.History

namespace Netfilum

open Crypto History Posix Program Rust
open scoped List

/-!
# Calls are served at most once, in order, with their own results

What every run of the system keeps, whatever its order of steps.

* `InLine` — the requests begin in the order in which their connections were established,
  and at most one on each connection.
* `InTurn` — a dispatch begins when the one before it has ended.
* `Upstream`, `Downstream` — what arrives on a connection is a prefix of the one request its
  peer writes, and of the response to it.
* `served_of_reaches` — what this means for the calls of `send`.
-/

variable {ι : Type}

/-! ### Reading the history -/

def Event.connects : Event ι → Option ι
  | .connected i => some i
  | _            => none

def Event.begins : Event ι → Option ι
  | .began i _ => some i
  | _          => none

/-- The peers that connected, in this order. -/
def connections (history : List (Event ι)) : List ι := history.filterMap Event.connects

/-- The peers whose requests were dispatched, in this order. -/
def begun (history : List (Event ι)) : List ι := history.filterMap Event.begins

/-- The tree that the last dispatch has left. -/
def treeAfter (tree : Tree) (history : List (Event ι)) : Tree :=
  history.foldl (fun t event => match event with
    | .ended _ result => final result
    | _               => t) tree

variable {history : List (Event ι)} {i : ι}

/-- One more event, and a connection if it is one. -/
theorem connections_concat (event : Event ι) :
    connections (history ++ [event]) = connections history ++ event.connects.toList := by
  unfold connections
  rw [List.filterMap_append]
  cases event <;> rfl

/-- One more event, and a dispatch if it begins one. -/
theorem begun_concat (event : Event ι) :
    begun (history ++ [event]) = begun history ++ event.begins.toList := by
  unfold begun
  rw [List.filterMap_append]
  cases event <;> rfl

/-- Who has connected is listed. -/
theorem mem_connections : i ∈ connections history ↔ .connected i ∈ history := by
  unfold connections
  rw [List.mem_filterMap]
  constructor
  · rintro ⟨event, hmem, heq⟩
    cases event with
    | connected j => cases heq; exact hmem
    | _ => cases heq
  · exact fun h => ⟨_, h, rfl⟩

/-- Whose dispatch has begun is listed. -/
theorem mem_begun : i ∈ begun history ↔ ∃ request, .began i request ∈ history := by
  unfold begun
  rw [List.mem_filterMap]
  constructor
  · rintro ⟨event, hmem, heq⟩
    cases event with
    | began j request => cases heq; exact ⟨request, hmem⟩
    | _ => cases heq
  · exact fun ⟨_, h⟩ => ⟨_, h, rfl⟩

/-- The tree after one more event is the one that it leaves. -/
theorem treeAfter_concat (tree : Tree) (event : Event ι) :
    treeAfter tree (history ++ [event]) = match event with
      | .ended _ result => final result
      | _               => treeAfter tree history := by
  unfold treeAfter
  rw [List.foldl_concat]

/-! ### The order of the connections -/

/-- Nobody connects twice, or after the call has returned. -/
structure Established (history : List (Event ι)) (stage : ι → Stage) : Prop where
  once  : (connections history).Nodup
  fresh : ∀ i, stage i = .idle → i ∉ connections history
  gone  : ∀ i result, .returned i result ∈ history → stage i ≠ .idle
  late  : ∀ i j result, [.returned i result, .connected j] <+ history →
    .connected i ∈ history → [.connected i, .connected j] <+ history

namespace Established

variable {stage : ι → Stage}

/-- At the start nobody has connected. -/
theorem start : Established ([] : List (Event ι)) (fun _ => .idle) where
  once := List.nodup_nil
  fresh _ _ := List.not_mem_nil
  gone _ _ h := absurd h List.not_mem_nil
  late _ _ _ h := by cases h

/-- Who is not idle any more has connected. -/
theorem mono (h : Established history stage) {stage' : ι → Stage}
    (hidle : ∀ i, stage' i = .idle → stage i = .idle) : Established history stage' :=
  { h with
    fresh := fun j hj => h.fresh j (hidle j hj)
    gone := fun j result hmem hj => h.gone j result hmem (hidle j hj) }

/-- An event that is no connection. -/
theorem concat (h : Established history stage) {event : Event ι} (hc : event.connects = none)
    (hgone : ∀ i result, event = .returned i result → stage i ≠ .idle) :
    Established (history ++ [event]) stage := by
  have heq : connections (history ++ [event]) = connections history := by
    rw [connections_concat, hc]
    exact List.append_nil _
  refine ⟨heq ▸ h.once, fun j hj => heq ▸ h.fresh j hj, ?_, ?_⟩
  · intro j result hmem
    rcases List.mem_append.mp hmem with hmem | hmem
    · exact h.gone j result hmem
    · exact hgone j result (List.mem_singleton.mp hmem).symm
  · intro j k result hsub hconn
    rcases pair_concat.mp hsub with hsub | ⟨rfl, -⟩
    · have hconn' : j ∈ connections (history ++ [event]) := mem_connections.mpr hconn
      rw [heq] at hconn'
      exact grow (h.late j k result hsub (mem_connections.mp hconn'))
    · cases hc

/-- Who connects was idle. -/
theorem connect [DecidableEq ι] (h : Established history stage) (hi : stage i = .idle) :
    Established (history ++ [.connected i]) (Function.update stage i .writing) := by
  -- a call that has returned is not the one that connects
  have hne : ∀ j result, .returned j result ∈ history ++ [.connected i] →
      .returned j result ∈ history ∧ j ≠ i := by
    intro j result hmem
    rcases List.mem_append.mp hmem with hold | hnew
    · exact ⟨hold, fun heq => h.gone j result hold (heq ▸ hi)⟩
    · cases List.mem_singleton.mp hnew
  refine ⟨?_, ?_, ?_, ?_⟩
  · -- nobody is connected twice
    rw [connections_concat]
    exact List.nodup_append.mpr ⟨h.once, List.nodup_singleton i, fun j hj k hk heq =>
      h.fresh i hi (by rw [← List.mem_singleton.mp hk, ← heq]; exact hj)⟩
  · -- whoever is idle has not connected
    intro j hj
    have hji : j ≠ i := by
      rintro rfl
      rw [Function.update_self] at hj
      cases hj
    rw [Function.update_of_ne hji] at hj
    rw [connections_concat, List.mem_append]
    exact fun hmem => hmem.elim (h.fresh j hj) fun hmem => hji (List.mem_singleton.mp hmem)
  · intro j result hmem
    obtain ⟨hmem, hji⟩ := hne j result hmem
    rw [Function.update_of_ne hji]
    exact h.gone j result hmem
  · intro j k result hsub hconn
    obtain ⟨-, hji⟩ := hne j result (hsub.subset (by simp))
    have hconn : .connected j ∈ history := by
      rcases List.mem_append.mp hconn with hconn | hconn
      · exact hconn
      · cases List.mem_singleton.mp hconn
        exact absurd rfl hji
    -- either the pair was there before, or `connected k` is the new event
    rcases pair_concat.mp hsub with hsub | ⟨heq, -⟩
    · exact grow (h.late j k result hsub hconn)
    · exact pair_concat.mpr (.inr ⟨heq, hconn⟩)

end Established

/-- The connection that was accepted and whose request has not been read. -/
def Serving.unread : Serving ι → Option ι
  | .readingTag i     => some i
  | .readingRequest i => some i
  | _                 => none

/-- The requests begin in the order of the connections; those behind are in the queue. -/
def InLine (history : List (Event ι)) (unread : Option ι) (queue : List ι) : Prop :=
  ∃ past, connections history = past ++ (unread.toList ++ queue) ∧ begun history <+ past

namespace InLine

variable {unread : Option ι} {queue : List ι} {stage : ι → Stage}

/-- At the start nobody stands in line. -/
theorem start : InLine ([] : List (Event ι)) none [] := ⟨[], rfl, List.Sublist.refl _⟩

/-- Dispatches begin in the order of the connections. -/
theorem begun_sublist (h : InLine history unread queue) :
    begun history <+ connections history := by
  obtain ⟨past, heq, hsub⟩ := h
  rw [heq]
  exact hsub.trans (List.sublist_append_left _ _)

/-- The one whose request is still to be read has not begun. -/
theorem not_begun (h : InLine history (some i) queue) (hnodup : (connections history).Nodup) :
    i ∉ begun history := by
  obtain ⟨past, heq, hsub⟩ := h
  rw [heq] at hnodup
  intro hmem
  exact (List.nodup_append.mp hnodup).2.2 i (hsub.subset hmem) i (by simp) rfl

/-- An event that is neither a connection nor a request. -/
theorem concat (h : InLine history unread queue) {event : Event ι}
    (hc : event.connects = none) (hb : event.begins = none) :
    InLine (history ++ [event]) unread queue := by
  unfold InLine
  rw [connections_concat, begun_concat, hc, hb, Option.toList_none, List.append_nil,
    List.append_nil]
  exact h

/-- Who connects goes to the end of the line. -/
theorem connect (h : InLine history unread queue) :
    InLine (history ++ [.connected i]) unread (queue ++ [i]) := by
  obtain ⟨past, heq, hsub⟩ := h
  refine ⟨past, ?_, ?_⟩
  · rw [connections_concat, heq, List.append_assoc, List.append_assoc]
    rfl
  · rw [begun_concat]
    exact (List.append_nil _).symm ▸ hsub

/-- Who is accepted is the next in line. -/
theorem accept (h : InLine history none (i :: queue)) : InLine history (some i) queue := h

/-- A connection is dropped before its request was read. -/
theorem release (h : InLine history unread queue) : InLine history none queue := by
  obtain ⟨past, heq, hsub⟩ := h
  refine ⟨past ++ unread.toList, ?_, hsub.trans (List.sublist_append_left _ _)⟩
  rw [heq, List.append_assoc]
  rfl

/-- When a request is read its dispatch begins. -/
theorem request (h : InLine history (some i) queue) (request : Request) :
    InLine (history ++ [.began i request]) none queue := by
  obtain ⟨past, heq, hsub⟩ := h
  refine ⟨past ++ [i], ?_, ?_⟩
  · rw [connections_concat, heq]
    show past ++ (i :: queue) ++ [] = past ++ [i] ++ queue
    rw [List.append_nil, List.append_assoc]
    rfl
  · rw [begun_concat]
    exact hsub.append (List.Sublist.refl _)

/-- Two requests begin in the order of their calls, if one had returned before the other
    connected. -/
theorem ordered (h : InLine history unread queue) (hest : Established history stage) {j : ι}
    {r r' : Request} {result : Except IoError (RpcResult Response)}
    (hsub : [.returned i result, .connected j] <+ history) (hi : .began i r ∈ history)
    (hj : .began j r' ∈ history) : [.began i r, .began j r'] <+ history := by
  have hconn : .connected i ∈ history :=
    mem_connections.mp (h.begun_sublist.subset (mem_begun.mpr ⟨r, hi⟩))
  have hbefore : [i, j] <+ connections history :=
    (hest.late i j result hsub hconn).filterMap Event.connects
  -- a peer connects once
  have hne : i ≠ j := by
    rintro rfl
    exact List.nodup_iff_sublist.mp hest.once i hbefore
  rcases before_or_after hi hj (fun heq => hne (by injection heq)) with hij | hji
  · exact hij
  · -- the other order would show in the order of the connections
    exact absurd ((hji.filterMap Event.begins).trans h.begun_sublist)
      (not_before_and_after hest.once hbefore)

end InLine

/-! ### One dispatch at a time -/

/-- A dispatch begins when the one before it has ended, on the tree that this has left. -/
structure InTurn (srv : RpcServer) (tree₀ : Tree) (history : List (Event ι))
    (serving : Serving ι) (tree : Tree) : Prop where
  current : ∀ i request, serving = .dispatching i request → .began i request ∈ history
  settled : ∀ i request, .began i request ∈ history → serving = .dispatching i request ∨
    ∃ result, [.began i request, .ended i result] <+ history
  apart   : ∀ i r j r', [.began i r, .began j r'] <+ history →
    ∃ result, [.began i r, .ended i result, .began j r'] <+ history
  results : ∀ earlier i result later, history = earlier ++ .ended i result :: later →
    ∃ os request, .began i request ∈ earlier ∧
      result = srv.dispatch os request (treeAfter tree₀ earlier)
  tree_eq : tree = treeAfter tree₀ history

namespace InTurn

variable {srv : RpcServer} {tree₀ tree : Tree} {serving : Serving ι}

/-- At the start nothing has been dispatched. -/
theorem start (srv : RpcServer) (tree : Tree) :
    InTurn srv tree ([] : List (Event ι)) .accepting tree where
  current _ _ h := by cases h
  settled _ _ h := absurd h List.not_mem_nil
  apart _ _ _ _ h := by cases h
  results earlier _ _ _ h := by cases earlier <;> cases h
  tree_eq := rfl

/-- The thread goes on, with no dispatch at either end of its step. -/
theorem move (h : InTurn srv tree₀ history serving tree) {serving' : Serving ι}
    (hfrom : ∀ i request, serving ≠ .dispatching i request)
    (hto : ∀ i request, serving' ≠ .dispatching i request) :
    InTurn srv tree₀ history serving' tree :=
  { h with
    current := fun i request heq => absurd heq (hto i request)
    settled := fun i request hmem => .inr ((h.settled i request hmem).resolve_left
      (hfrom i request)) }

/-- An event that is neither end of a dispatch. -/
theorem concat (h : InTurn srv tree₀ history serving tree) {event : Event ι}
    (hb : ∀ i request, event ≠ .began i request) (he : ∀ i result, event ≠ .ended i result) :
    InTurn srv tree₀ (history ++ [event]) serving tree where
  current i request heq := List.mem_append_left _ (h.current i request heq)
  settled i request hmem := by
    rcases List.mem_append.mp hmem with hold | hnew
    · exact (h.settled i request hold).imp_right fun ⟨result, hsub⟩ =>
        ⟨result, grow hsub⟩
    · exact absurd (List.mem_singleton.mp hnew).symm (hb i request)
  apart i r j r' hsub := by
    rcases pair_concat.mp hsub with hsub | ⟨heq, -⟩
    · obtain ⟨result, hsub⟩ := h.apart i r j r' hsub
      exact ⟨result, grow hsub⟩
    · exact absurd heq.symm (hb j r')
  results earlier i result later heq := by
    rcases split_concat heq with ⟨later', hold⟩ | ⟨-, hnew⟩
    · exact h.results earlier i result later' hold
    · exact absurd hnew.symm (he i result)
  tree_eq := by
    rw [treeAfter_concat, h.tree_eq]
    cases event with
    | ended i result => exact absurd rfl (he i result)
    | _ => rfl

/-- The request has been read, and its dispatch begins. -/
theorem request (h : InTurn srv tree₀ history (.readingRequest i) tree) (request : Request) :
    InTurn srv tree₀ (history ++ [.began i request]) (.dispatching i request) tree where
  current j r heq := by
    cases heq
    exact List.mem_append_right _ (List.mem_singleton.mpr rfl)
  settled j r hmem := by
    rcases List.mem_append.mp hmem with hold | hnew
    · obtain ⟨result, hsub⟩ := (h.settled j r hold).resolve_left (by simp)
      exact .inr ⟨result, grow hsub⟩
    · cases List.mem_singleton.mp hnew
      exact .inl rfl
  apart j r k r' hsub := by
    rcases pair_concat.mp hsub with hsub | ⟨heq, hmem⟩
    · obtain ⟨result, hsub⟩ := h.apart j r k r' hsub
      exact ⟨result, grow hsub⟩
    · -- whatever began before has ended, since the thread was reading
      obtain ⟨result, hsub⟩ := (h.settled j r hmem).resolve_left (by simp)
      exact ⟨result, heq ▸ hsub.append (List.Sublist.refl [_])⟩
  results earlier j result later heq := by
    rcases split_concat heq with ⟨later', hold⟩ | ⟨-, hnew⟩
    · exact h.results earlier j result later' hold
    · cases hnew
  tree_eq := by
    rw [treeAfter_concat]
    exact h.tree_eq

/-- The dispatch ends. -/
theorem dispatch {request : Request} (h : InTurn srv tree₀ history (.dispatching i request) tree)
    (os : Os) (bytes : List UInt8) :
    InTurn srv tree₀ (history ++ [.ended i (srv.dispatch os request tree)])
      (.writingResponse i bytes) (final (srv.dispatch os request tree)) where
  current j r heq := by cases heq
  settled j r hmem := by
    rcases List.mem_append.mp hmem with hold | hnew
    · refine .inr ?_
      rcases h.settled j r hold with heq | ⟨result, hsub⟩
      · -- the dispatch that ends now
        cases heq
        exact ⟨_, pair_concat.mpr (.inr ⟨rfl, hold⟩)⟩
      · exact ⟨result, grow hsub⟩
    · cases List.mem_singleton.mp hnew
  apart j r k r' hsub := by
    rcases pair_concat.mp hsub with hsub | ⟨heq, -⟩
    · obtain ⟨result, hsub⟩ := h.apart j r k r' hsub
      exact ⟨result, grow hsub⟩
    · cases heq
  results earlier j result later heq := by
    rcases split_concat heq with ⟨later', hold⟩ | ⟨hhist, hnew⟩
    · exact h.results earlier j result later' hold
    · cases hnew
      exact ⟨os, request, hhist ▸ h.current i request rfl, by rw [← hhist, ← h.tree_eq]⟩
  tree_eq := by rw [treeAfter_concat]

end InTurn

/-! ### What arrives -/

/-- A message that is read from a part of what was written for a message is that message. -/
theorem eq_of_read {α : Type} {cipher : RpcCipher} {codec : Postcard.Codec α} {nonce : Nonce}
    {value v : α} {cut rest : List UInt8}
    (hcut : cut <+: final (writeMessage cipher codec nonce value []))
    (hread : readMessage cipher codec cut = .ok v rest) : v = value := by
  rcases writeMessage_cases cipher codec nonce value with ⟨bytes, hwrite, hwhole, hshort⟩ | ⟨e, he⟩
  · rw [hwrite] at hcut
    -- a message cut short is no message
    by_cases heq : cut = bytes
    · have := hwhole []
      rw [List.append_nil, ← heq, hread] at this
      cases this
      rfl
    · rw [hshort cut hcut heq] at hread
      cases hread
  · -- nothing was written
    rw [he] at hcut
    cases List.prefix_nil.mp hcut
    cases hread

/-- What a call of `send` writes is the tag and the frame of its request. -/
theorem script_send (cipher : RpcCipher) (nonce : Nonce) (request : Request) :
    (Peer.send nonce request).script cipher
      = connectionData :: final (writeMessage cipher Request.codec nonce request []) := by
  show final (writeMessage cipher Request.codec nonce request [connectionData]) = _
  rcases writeMessage_cases cipher Request.codec nonce request with ⟨bytes, hwrite, -⟩ | ⟨e, he⟩
  · rw [hwrite, hwrite]
    rfl
  · rw [he, he]
    rfl

/-- One byte is read where one has arrived. -/
theorem readExact_one {bytes tag rest : List UInt8} (h : readExact 1 bytes = .ok tag rest) :
    ∃ b, tag = [b] ∧ bytes = b :: rest := by
  cases bytes with
  | nil => cases h
  | cons b bytes =>
    cases h
    exact ⟨b, rfl, rfl⟩

/-- The bytes on their way to the server, and the requests read from them. -/
structure Upstream (cipher : RpcCipher) (peer : ι → Peer) (connection : ι → Connection)
    (history : List (Event ι)) : Prop where
  sent    : ∀ i, (connection i).sent <+: (peer i).script cipher
  arrived : ∀ i, (connection i).arrived <+: (connection i).sent
  own     : ∀ i nonce request r, peer i = .send nonce request → .began i r ∈ history → r = request

namespace Upstream

variable {cipher : RpcCipher} {peer : ι → Peer} {connection : ι → Connection}

/-- At the start nothing has been sent. -/
theorem start : Upstream cipher peer (fun _ => {}) ([] : List (Event ι)) where
  sent _ := List.nil_prefix
  arrived _ := List.nil_prefix
  own _ _ _ _ _ h := absurd h List.not_mem_nil

/-- An event that begins no foreign request changes nothing here. -/
theorem concat (h : Upstream cipher peer connection history) {event : Event ι}
    (hown : ∀ i nonce request r, peer i = .send nonce request → event = .began i r → r = request) :
    Upstream cipher peer connection (history ++ [event]) :=
  { h with
    own := fun i nonce request r hpeer hmem => (List.mem_append.mp hmem).elim
      (h.own i nonce request r hpeer)
      fun hnew => hown i nonce request r hpeer (List.mem_singleton.mp hnew).symm }

/-- More is sent, or arrives, of what the peer writes. -/
theorem update [DecidableEq ι] (h : Upstream cipher peer connection history)
    {c : Connection} (hsent : c.sent <+: (peer i).script cipher) (harrived : c.arrived <+: c.sent) :
    Upstream cipher peer (Function.update connection i c) history where
  sent := (Function.forall_update_iff connection fun j c =>
    c.sent <+: (peer j).script cipher).mpr ⟨hsent, fun j _ => h.sent j⟩
  arrived := (Function.forall_update_iff connection fun _ c =>
    c.arrived <+: c.sent).mpr ⟨harrived, fun j _ => h.arrived j⟩
  own := h.own

/-- The request that the server reads on the connection of a call is the one of the call. -/
theorem request (h : Upstream cipher peer connection history) {tag rest rest' : List UInt8}
    {request : Request} (htag : readExact 1 (connection i).arrived = .ok tag rest)
    (hread : readMessage cipher Request.codec rest = .ok request rest') :
    Upstream cipher peer connection (history ++ [.began i request]) := by
  refine h.concat ?_
  intro j nonce request' r hpeer heq
  cases heq
  obtain ⟨b, -, hbytes⟩ := readExact_one htag
  have hprefix := (h.arrived i).trans (h.sent i)
  rw [hbytes, hpeer, script_send] at hprefix
  exact eq_of_read (List.cons_prefix_cons.mp hprefix).2 hread

end Upstream

/-- These bytes are the response to a request of the peer. -/
def Answers (cipher : RpcCipher) (history : List (Event ι)) (i : ι) (all : List UInt8) : Prop :=
  ∃ nonce request result, [.began i request, .ended i result] <+ history ∧
    all = final (writeMessage cipher RpcResult.codec nonce (outcome result) [])

/-- What answers a call still does so later. -/
theorem Answers.concat {cipher : RpcCipher} {all : List UInt8}
    (h : Answers cipher history i all) (event : Event ι) :
    Answers cipher (history ++ [event]) i all := by
  obtain ⟨nonce, request, result, hsub, heq⟩ := h
  exact ⟨nonce, request, result, grow hsub, heq⟩

/-- The bytes on their way back, and the answers read from them. -/
structure Downstream (cipher : RpcCipher) (connection : ι → Connection) (serving : Serving ι)
    (history : List (Event ι)) : Prop where
  received : ∀ i, (connection i).received <+: (connection i).answered
  silent   : ∀ i request, serving = .dispatching i request → (connection i).answered = []
  writing  : ∀ i all, serving = .writingResponse i all →
    Answers cipher history i all ∧ (connection i).answered <+: all
  answered : ∀ i, (connection i).answered = [] ∨
    ∃ all, Answers cipher history i all ∧ (connection i).answered <+: all
  returned : ∀ i answer, .returned i (.ok answer) ∈ history → ∃ request result,
    [.began i request, .ended i result, .returned i (.ok answer)] <+ history ∧
      outcome result = answer

namespace Downstream

variable {cipher : RpcCipher} {connection : ι → Connection} {serving : Serving ι}

/-- At the start nothing has been answered. -/
theorem start : Downstream cipher (fun _ => {}) .accepting ([] : List (Event ι)) where
  received _ := List.nil_prefix
  silent _ _ h := by cases h
  writing _ _ h := by cases h
  answered _ := .inl rfl
  returned _ _ h := absurd h List.not_mem_nil

/-- The thread neither dispatches nor writes. -/
theorem move (h : Downstream cipher connection serving history) {serving' : Serving ι}
    (hd : ∀ i request, serving' ≠ .dispatching i request)
    (hw : ∀ i all, serving' ≠ .writingResponse i all) :
    Downstream cipher connection serving' history :=
  { h with
    silent := fun i request heq => absurd heq (hd i request)
    writing := fun i all heq => absurd heq (hw i all) }

/-- An event that returns no answer changes nothing here. -/
theorem concat (h : Downstream cipher connection serving history) {event : Event ι}
    (hret : ∀ i answer, event ≠ .returned i (.ok answer)) :
    Downstream cipher connection serving (history ++ [event]) :=
  { h with
    writing := fun i all heq => (h.writing i all heq).imp_left (·.concat event)
    answered := fun i => (h.answered i).imp_right fun ⟨all, hall, hpre⟩ =>
      ⟨all, hall.concat event, hpre⟩
    returned := fun i answer hmem => by
      rcases List.mem_append.mp hmem with hold | hnew
      · obtain ⟨request, result, hsub, heq⟩ := h.returned i answer hold
        exact ⟨request, result, grow hsub, heq⟩
      · exact absurd (List.mem_singleton.mp hnew).symm (hret i answer) }

/-- Bytes are written or arrive on a connection, and nothing is taken back. -/
theorem update [DecidableEq ι] (h : Downstream cipher connection serving history)
    {c : Connection} (hreceived : c.received <+: c.answered)
    (hanswered : c.answered = (connection i).answered ∨
      ∃ all, serving = .writingResponse i all ∧ c.answered <+: all) :
    Downstream cipher (Function.update connection i c) serving history where
  received := (Function.forall_update_iff connection fun _ c =>
    c.received <+: c.answered).mpr ⟨hreceived, fun j _ => h.received j⟩
  silent := by
    refine (Function.forall_update_iff connection fun j c =>
      ∀ request, serving = .dispatching j request → c.answered = []).mpr ⟨?_, fun j _ => h.silent j⟩
    intro request hserving
    -- either nothing was written, or what the thread is writing
    rcases hanswered with heq | ⟨all, heq, -⟩
    · rw [heq]
      exact h.silent i request hserving
    · rw [heq] at hserving
      cases hserving
  writing := by
    refine (Function.forall_update_iff connection fun j c => ∀ all,
      serving = .writingResponse j all → Answers cipher history j all ∧ c.answered <+: all).mpr
        ⟨?_, fun j _ => h.writing j⟩
    intro all hserving
    obtain ⟨hall, hpre⟩ := h.writing i all hserving
    rcases hanswered with heq | ⟨all', heq, hpre'⟩
    · exact ⟨hall, heq ▸ hpre⟩
    · rw [heq] at hserving
      cases hserving
      exact ⟨hall, hpre'⟩
  answered := by
    refine (Function.forall_update_iff connection fun j c =>
      c.answered = [] ∨ ∃ all, Answers cipher history j all ∧ c.answered <+: all).mpr
        ⟨?_, fun j _ => h.answered j⟩
    rcases hanswered with heq | ⟨all, heq, hpre⟩
    · exact heq ▸ h.answered i
    · exact .inr ⟨all, (h.writing i all heq).1, hpre⟩
  returned := h.returned

/-- A dispatch that begins has no answer yet. -/
theorem request (h : Downstream cipher connection serving history) (hnew : i ∉ begun history)
    (request : Request) :
    Downstream cipher connection (.dispatching i request) (history ++ [.began i request]) := by
  refine { h.concat (by simp) with silent := ?_, writing := by simp }
  intro j r heq
  cases heq
  rcases h.answered i with hnil | ⟨all, ⟨nonce, r, result, hsub, -⟩, -⟩
  · exact hnil
  · exact absurd (mem_begun.mpr ⟨r, hsub.subset (by simp)⟩) hnew

/-- When a dispatch ends its answer is what will be written. -/
theorem dispatch {request : Request}
    (h : Downstream cipher connection (.dispatching i request) history)
    (hbegan : .began i request ∈ history) (nonce : Nonce)
    (result : EStateM.Result RpcError Tree Response) :
    Downstream cipher connection (.writingResponse i
      (final (writeMessage cipher RpcResult.codec nonce (outcome result) [])))
      (history ++ [.ended i result]) := by
  refine { h.concat (by simp) with silent := by simp, writing := ?_ }
  intro j all heq
  cases heq
  refine ⟨⟨nonce, request, result, pair_concat.mpr (.inr ⟨rfl, hbegan⟩), rfl⟩, ?_⟩
  -- nothing of the response is written yet
  rw [h.silent i request rfl]
  exact List.nil_prefix

/-- The answer that a call reads is the result of the dispatch of its request. -/
theorem receive (h : Downstream cipher connection serving history) {answer : RpcResult Response}
    {rest : List UInt8}
    (hread : readMessage cipher RpcResult.codec (connection i).received = .ok answer rest) :
    Downstream cipher connection serving (history ++ [.returned i (.ok answer)]) where
  received := h.received
  silent := h.silent
  writing j all heq := (h.writing j all heq).imp_left (·.concat _)
  answered j := (h.answered j).imp_right fun ⟨all, hall, hpre⟩ => ⟨all, hall.concat _, hpre⟩
  returned j answer' hmem := by
    rcases List.mem_append.mp hmem with hold | hnew
    · obtain ⟨request, result, hsub, heq⟩ := h.returned j answer' hold
      exact ⟨request, result, grow hsub, heq⟩
    · cases List.mem_singleton.mp hnew
      have hpre := h.received i
      rcases h.answered i with hnil | ⟨all, ⟨nonce, request, result, hsub, rfl⟩, hall⟩
      · -- an answer is not read from nothing
        rw [hnil] at hpre
        rw [List.prefix_nil.mp hpre] at hread
        cases hread
      · exact ⟨request, result, hsub.append (List.Sublist.refl [_]),
          (eq_of_read (hpre.trans hall) hread).symm⟩

end Downstream

/-! ### Runs -/

/-- What every state of a run satisfies. -/
structure Inv (srv : RpcServer) (cipher : RpcCipher) (peer : ι → Peer) (tree₀ : Tree)
    (s : System ι) : Prop where
  established : Established s.history s.stage
  inLine      : InLine s.history s.serving.unread s.queue
  inTurn      : InTurn srv tree₀ s.history s.serving s.tree
  upstream    : Upstream cipher peer s.connection s.history
  downstream  : Downstream cipher s.connection s.serving s.history

namespace Inv

variable {srv : RpcServer} {cipher : RpcCipher} {peer : ι → Peer} {tree₀ : Tree} {s s' : System ι}

/-- At the start the invariant holds. -/
theorem start (srv : RpcServer) (cipher : RpcCipher) (peer : ι → Peer) (tree : Tree) :
    Inv srv cipher peer tree (.start tree) :=
  ⟨.start, .start, .start srv tree, .start, .start⟩

/-- The thread drops the connection and accepts the next, or stops. -/
theorem release (h : Inv srv cipher peer tree₀ s) {serving : Serving ι}
    (hserving : ∀ i request, s.serving ≠ .dispatching i request)
    (hto : serving = .accepting ∨ serving = .stopped) :
    Inv srv cipher peer tree₀ { s with serving } := by
  rcases hto with rfl | rfl
  · exact { h with
      inLine := h.inLine.release
      inTurn := h.inTurn.move hserving (by simp)
      downstream := h.downstream.move (by simp) (by simp) }
  · exact { h with
      inLine := h.inLine.release
      inTurn := h.inTurn.move hserving (by simp)
      downstream := h.downstream.move (by simp) (by simp) }

variable [DecidableEq ι]

/-- A call that goes on has connected. -/
theorem established_setStage (h : Inv srv cipher peer tree₀ s) (i : ι) {stage : Stage}
    (hne : stage ≠ .idle) : Established s.history (s.setStage i stage).stage :=
  h.established.mono ((Function.forall_update_iff s.stage fun j st =>
    st = .idle → s.stage j = .idle).mpr ⟨fun heq => absurd heq hne, fun _ _ heq => heq⟩)

/-- A call that returns has connected. -/
theorem established_returns (h : Inv srv cipher peer tree₀ s) (i : ι)
    (result : Except IoError (RpcResult Response)) :
    Established (s.returns i result).history (s.returns i result).stage := by
  refine (h.established_setStage i (by simp)).concat rfl ?_
  rintro j result' ⟨⟩
  simp [System.setStage]

/-- Every step keeps the invariant. -/
theorem step (h : Inv srv cipher peer tree₀ s) (hstep : Step srv cipher peer s s') :
    Inv srv cipher peer tree₀ s' := by
  cases hstep with
  -- the caller
  | connect i hidle =>
    exact ⟨h.established.connect hidle, h.inLine.connect, h.inTurn.concat (by simp) (by simp),
      h.upstream.concat (by simp), h.downstream.concat (by simp)⟩
  | write i hstage hmore hbytes =>
    exact { h with
      upstream := h.upstream.update hbytes ((h.upstream.arrived i).trans hmore)
      downstream := h.downstream.update (h.downstream.received i) (.inl rfl) }
  | written i hstage hpeer hok =>
    exact { h with established := h.established_setStage i (by simp) }
  | receive i hstage hread =>
    exact ⟨h.established_returns i _, h.inLine.concat rfl rfl, h.inTurn.concat (by simp) (by simp),
      h.upstream.concat (by simp), h.downstream.receive hread⟩
  | fail i e hstage =>
    exact ⟨h.established_returns i _, h.inLine.concat rfl rfl, h.inTurn.concat (by simp) (by simp),
      h.upstream.concat (by simp), h.downstream.concat (by simp)⟩
  -- the network: bytes arrive as they were written, whole or in part
  | carry i hmore hbytes =>
    exact { h with
      upstream := h.upstream.update (h.upstream.sent i) hbytes
      downstream := h.downstream.update (h.downstream.received i) (.inl rfl) }
  | carryBack i hmore hbytes =>
    exact { h with
      upstream := h.upstream.update (h.upstream.sent i) (h.upstream.arrived i)
      downstream := h.downstream.update hbytes (.inl rfl) }
  -- the serving thread; what ends a connection early releases it
  | accept i hserving hqueue =>
    have hline := h.inLine
    rw [hserving, hqueue] at hline
    exact { h with
      inLine := hline.accept
      inTurn := h.inTurn.move (by simp [hserving]) (by simp)
      downstream := h.downstream.move (by simp) (by simp) }
  | acceptFails hserving => exact h.release (by simp [hserving]) (.inr rfl)
  | tagFails i hserving => exact h.release (by simp [hserving]) (.inl rfl)
  | tagMonitor i hserving htag => exact h.release (by simp [hserving]) (.inl rfl)
  | tagOther i hserving htag hne => exact h.release (by simp [hserving]) (.inl rfl)
  | tagData i hserving htag =>
    have hline := h.inLine
    rw [hserving] at hline
    exact { h with
      inLine := hline
      inTurn := h.inTurn.move (by simp [hserving]) (by simp)
      upstream := h.upstream.update (h.upstream.sent i) (h.upstream.arrived i)
      downstream := (h.downstream.move (by simp) (by simp)).update (h.downstream.received i)
        (.inl rfl) }
  | requestFails i hserving => exact h.release (by simp [hserving]) (.inl rfl)
  | request i hserving htag hread =>
    have hline := h.inLine
    have hturn := h.inTurn
    rw [hserving] at hline hturn
    exact ⟨h.established.concat rfl (by simp), hline.request _, hturn.request _,
      h.upstream.request htag hread,
      h.downstream.request (hline.not_begun h.established.once) _⟩
  | dispatch i os nonce hserving =>
    have hline := h.inLine
    have hturn := h.inTurn
    have hdown := h.downstream
    rw [hserving] at hline hturn hdown
    exact ⟨h.established.concat rfl (by simp), hline.concat rfl rfl, hturn.dispatch os _,
      h.upstream.concat (by simp), hdown.dispatch (hturn.current i _ rfl) nonce _⟩
  | respond i hserving hmore hbytes =>
    exact { h with
      upstream := h.upstream.update (h.upstream.sent i) (h.upstream.arrived i)
      downstream := h.downstream.update ((h.downstream.received i).trans hmore)
        (.inr ⟨_, hserving, hbytes⟩) }
  | responded i hserving => exact h.release (by simp [hserving]) (.inl rfl)

/-- The invariant holds in every run. -/
theorem of_reaches {tree : Tree} (hrun : Reaches srv cipher peer (.start tree) s) :
    Inv srv cipher peer tree s := by
  induction hrun with
  | refl => exact start srv cipher peer tree
  | tail _ hstep ih => exact ih.step hstep

end Inv

/-- What the calls of `send` can rely on. -/
structure Served (srv : RpcServer) (peer : ι → Peer) (tree₀ : Tree) (history : List (Event ι))
    [DecidableEq ι] : Prop where
  /-- A request is dispatched at most once, -/
  once     : ∀ i, (begun history).count i ≤ 1
  /-- and no other in its place. -/
  own      : ∀ i nonce request r, peer i = .send nonce request → .began i r ∈ history → r = request
  /-- A call that returns an answer was dispatched exactly once, before it returned, and the
      answer is what this dispatch returned. -/
  answered : ∀ i nonce request answer, peer i = .send nonce request →
    .returned i (.ok answer) ∈ history → (begun history).count i = 1 ∧
      ∃ os tree, [.began i request, .ended i (srv.dispatch os request tree),
        .returned i (.ok answer)] <+ history ∧ answer = outcome (srv.dispatch os request tree)
  /-- Every dispatch starts from the tree that the one before it has left. -/
  results  : ∀ earlier i result later, history = earlier ++ .ended i result :: later →
    ∃ os request, .began i request ∈ earlier ∧
      result = srv.dispatch os request (treeAfter tree₀ earlier)
  /-- Dispatches do not overlap, -/
  apart    : ∀ i r j r', [.began i r, .began j r'] <+ history →
    ∃ result, [.began i r, .ended i result, .began j r'] <+ history
  /-- and when a call has returned before another connected, its dispatch comes first. -/
  ordered  : ∀ i v j r r', [.returned i v, .connected j] <+ history → .began i r ∈ history →
    .began j r' ∈ history → ∃ result, [.began i r, .ended i result, .began j r'] <+ history

/-- **Calls are served at most once, in order, with their own results**, in every run, in
    whatever order the peers, the network and the serving thread take their steps. -/
theorem served_of_reaches [DecidableEq ι] (srv : RpcServer) (cipher : RpcCipher) (peer : ι → Peer)
    (tree : Tree) (s : System ι) (hrun : Reaches srv cipher peer (.start tree) s) :
    Served srv peer tree s.history := by
  have h := Inv.of_reaches hrun
  have hnodup : (begun s.history).Nodup := h.established.once.sublist h.inLine.begun_sublist
  refine ⟨List.nodup_iff_count_le_one.mp hnodup, h.upstream.own, ?_, h.inTurn.results,
    h.inTurn.apart, ?_⟩
  · intro i nonce request answer hpeer hret
    obtain ⟨r, result, hsub, hanswer⟩ := h.downstream.returned i answer hret
    have hbegan : .began i r ∈ s.history := hsub.subset (by simp)
    obtain rfl := h.upstream.own i nonce request r hpeer hbegan
    refine ⟨List.count_eq_one_of_mem hnodup (mem_begun.mpr ⟨r, hbegan⟩), ?_⟩
    -- the result is the one of the dispatch
    obtain ⟨earlier, later, heq⟩ := List.append_of_mem
      (hsub.subset (by simp) : Event.ended i result ∈ s.history)
    obtain ⟨os, r', hearlier, hresult⟩ := h.inTurn.results earlier i result later heq
    obtain rfl := h.upstream.own i nonce r r' hpeer (heq ▸ List.mem_append_left _ hearlier)
    exact ⟨os, _, hresult ▸ hsub, by rw [← hanswer, hresult]⟩
  · -- an earlier call is ahead in line, and dispatches end before the next begins
    intro i v j r r' hsub hi hj
    exact h.inTurn.apart i r j r' (h.inLine.ordered h.established hsub hi hj)

/-- A request and, after a timeout, the same request once more. -/
def retried (_ : Bool) : Peer := .send ⟨List.replicate 12 0, rfl⟩ (.stat "a")

/-- The first call is still in the queue when its timeout passes and the second connects. -/
theorem served_of_reaches_retry : ∃ s,
    Reaches RpcServer.serverAtR statCipher retried (.start treeWithFile) s ∧
      ∃ result, [.began false (.stat "a"), .ended false result, .began true (.stat "a")]
        <+ s.history := by
  have hscript : ∀ i, connectionData :: statFrame <+: (retried i).script statCipher :=
    fun i => List.prefix_refl (connectionData :: statFrame)
  obtain ⟨s, hhistory, hrun⟩ : ∃ s, s.history = [.connected false, .returned false (.error .eof),
      .connected true, .began false (.stat "a"),
      .ended false (RpcServer.serverAtR.dispatch (.atTime ⟨1, 0⟩) (.stat "a") treeWithFile),
      .began true (.stat "a")] ∧
      Reaches RpcServer.serverAtR statCipher retried (.start treeWithFile) s :=
    ⟨_, rfl, (((((((((((((((Relation.ReflTransGen.refl.tail
      (.connect false rfl)).tail
      (.write false rfl List.nil_prefix (hscript false))).tail
      (.fail false .eof (by simp [System.start, System.setStage, System.setConnection]))).tail
      (.connect true rfl)).tail
      (.write true rfl List.nil_prefix (hscript true))).tail
      (.carry false List.nil_prefix (List.prefix_refl _))).tail
      (.accept false rfl rfl)).tail
      (.tagData false rfl rfl)).tail
      (.request false rfl rfl read_statFrame)).tail
      (.dispatch false (.atTime ⟨1, 0⟩) ⟨List.replicate 12 0, rfl⟩ rfl)).tail
      (.responded false rfl)).tail
      (.carry true List.nil_prefix (List.prefix_refl _))).tail
      (.accept true rfl rfl)).tail
      (.tagData true rfl rfl)).tail
      (.request true rfl rfl read_statFrame))⟩
  exact ⟨s, hrun, (served_of_reaches _ _ _ _ _ hrun).ordered false (.error .eof) true _ _
    (by rw [hhistory]; simp) (by rw [hhistory]; simp) (by rw [hhistory]; simp)⟩

end Netfilum
