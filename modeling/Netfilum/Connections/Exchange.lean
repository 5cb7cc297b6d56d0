import Netfilum.Connections.Linear

namespace Netfilum

open Crypto History Posix Program Rust RpcServer
open scoped List

/-!
# Exchanges are what the network does

The callbacks of the client are proved over `RpcServer.exchange`, one atomic step.  Here this
step is compared with the system of peers, bytes and a serving thread.

* `Peer.Asks` — the request that `handle_data` reads from what a peer writes.
* `Exchanges` — requests one after another, each dispatched on the tree that the one before it
  has left, with the answers of the callers that have one.
* `exchanges_of_history` — the dispatches of a run are exchanges; `exists_answered` — an exchange
  can be run.
* `exchanges_iff` — the runs of the system are the sequences of exchanges.
-/

variable {ι : Type} {srv : RpcServer} {cipher : RpcCipher} {peer : ι → Peer} {tree t : Tree}
  {history : List (Event ι)} {i : ι} {request : Request}

/-! ### What a peer asks for -/

section

variable {α : Type} {codec : Postcard.Codec α} {v value : α} {stream rest cut : List UInt8}

/-- Bytes that follow a message are left unread. -/
theorem readMessage_append (h : readMessage cipher codec stream = .ok v rest)
    (more : List UInt8) : readMessage cipher codec (stream ++ more) = .ok v (rest ++ more) := by
  obtain ⟨payload, plaintext, hlen, hdec, hvalue, rfl⟩ := (readMessage_eq_ok cipher codec).mp h
  exact (readMessage_eq_ok cipher codec).mpr
    ⟨payload, plaintext, hlen, hdec, hvalue, by simp⟩

/-- What is read was written, so it fits in a frame. -/
theorem fits_of_read {nonce : Nonce}
    (hcut : cut <+: final (writeMessage cipher codec nonce value []))
    (hread : readMessage cipher codec cut = .ok v rest) :
    (codec.put value).length + 28 < 2 ^ 32 := by
  rcases writeMessage_cases cipher codec nonce value with ⟨bytes, hwrite, -⟩ | ⟨e, he⟩
  · exact (writeMessage_ok_iff cipher codec nonce value []).mp ⟨_, hwrite []⟩
  · rw [he] at hcut
    cases List.prefix_nil.mp hcut
    cases hread

end

/-- The peer writes the tag of a data connection, and a request that can be read. -/
def Peer.Asks (cipher : RpcCipher) (p : Peer) (request : Request) : Prop :=
  ∃ rest rest', p.script cipher = connectionData :: rest ∧
    readMessage cipher Request.codec rest = .ok request rest'

/-- A call of `send` asks for its own request, if this fits in a frame. -/
theorem asks_send {nonce : Nonce} {r : Request} :
    (Peer.send nonce request).Asks cipher r ↔ r = request ∧ (Message.request request).Fits := by
  unfold Peer.Asks
  rw [script_send]
  constructor
  · rintro ⟨rest, rest', heq, hread⟩
    cases heq
    exact ⟨eq_of_read (List.prefix_refl _) hread, fits_of_read (List.prefix_refl _) hread⟩
  · rintro ⟨rfl, hfits⟩
    obtain ⟨bytes, hframe⟩ := (frame_ok_iff cipher Request.codec nonce r).mpr hfits
    refine ⟨_, [], rfl, ?_⟩
    rw [writeMessage_apply, hframe]
    have hread := readMessage_frame cipher Request.codec hframe []
    rwa [List.append_nil] at hread

/-- What arrives is a part of what is written, so that a request read from it is asked for. -/
theorem asks_of_arrived {p : Peer} {arrived tag rest rest' : List UInt8}
    (hpre : arrived <+: p.script cipher) (htag : readExact 1 arrived = .ok tag rest)
    (hdata : tag = [connectionData])
    (hread : readMessage cipher Request.codec rest = .ok request rest') :
    p.Asks cipher request := by
  obtain ⟨b, rfl, rfl⟩ := readExact_one htag
  obtain ⟨more, hmore⟩ := hpre
  cases hdata
  exact ⟨rest ++ more, rest' ++ more, hmore.symm, readMessage_append hread more⟩

/-! ### The runs are exchanges -/

/-- Requests one after another, each dispatched on the tree that the one before it has left.  A
    call has an answer if it comes back; what becomes of the others is not said. -/
inductive Exchanges (srv : RpcServer) (cipher : RpcCipher) (peer : ι → Peer) (tree : Tree) :
    List (ι × Option (RpcResult Response)) → Tree → Prop
  | start : Exchanges srv cipher peer tree [] tree
  | answered {calls t} {i : ι} {nonce : Nonce} {request : Request} (os : Os)
    {answer : RpcResult Response} {t' : Tree} (h : Exchanges srv cipher peer tree calls t)
    (hpeer : peer i = .send nonce request)
    (hexchange : srv.exchange os request t = .ok answer t') :
    Exchanges srv cipher peer tree (calls ++ [(i, some answer)]) t'
  | carriedOut {calls t} {i : ι} {request : Request} (os : Os)
    (h : Exchanges srv cipher peer tree calls t) (hasks : (peer i).Asks cipher request) :
    Exchanges srv cipher peer tree (calls ++ [(i, none)]) (final (srv.dispatch os request t))

/-- An exchange that answers is a dispatch whose request and result fit in frames. -/
theorem exchange_eq_ok {os : Os} {answer : RpcResult Response} {t' : Tree} :
    srv.exchange os request t = .ok answer t' ↔ (Message.request request).Fits ∧
      (Message.result answer).Fits ∧ answer = outcome (srv.dispatch os request t) ∧
      t' = final (srv.dispatch os request t) := by
  unfold exchange
  by_cases hreq : (Message.request request).Fits
  · rw [if_pos hreq]
    dsimp only
    by_cases hres : (Message.result (outcome (srv.dispatch os request t))).Fits
    · rw [if_pos hres]
      constructor
      · intro h
        cases h
        exact ⟨hreq, hres, rfl, rfl⟩
      · rintro ⟨-, -, rfl, rfl⟩
        rfl
    · rw [if_neg hres]
      refine iff_of_false (by rintro ⟨⟩) ?_
      rintro ⟨-, hres', rfl, -⟩
      exact hres hres'
  · rw [if_neg hreq]
    exact iff_of_false (by rintro ⟨⟩) fun h => hreq h.1

/-- What the system has read and returned, beside `Inv`: the tag is read before the request, only
    a call of `send` waits for an answer, and an answer that it reads fits in a frame. -/
structure Heard (cipher : RpcCipher) (peer : ι → Peer) (s : System ι) : Prop where
  tagged   : ∀ i, s.serving = .readingRequest i → ∃ rest,
    (s.connection i).arrived = connectionData :: rest
  began    : ∀ i request, .began i request ∈ s.history → (peer i).Asks cipher request
  waiting  : ∀ i, s.stage i = .waiting → ∃ nonce request, peer i = .send nonce request
  returned : ∀ i answer, .returned i (.ok answer) ∈ s.history →
    (∃ nonce request, peer i = .send nonce request) ∧ (Message.result answer).Fits

namespace Heard

/-- At the start nothing has been heard. -/
theorem start (cipher : RpcCipher) (peer : ι → Peer) (tree : Tree) :
    Heard cipher peer (.start tree) where
  tagged _ h := by cases h
  began _ _ h := absurd h List.not_mem_nil
  waiting _ h := by cases h
  returned _ _ h := absurd h List.not_mem_nil

variable {s s' : System ι}

/-- The thread goes on without having read a tag. -/
theorem move (h : Heard cipher peer s) {serving : Serving ι}
    (hto : ∀ i, serving ≠ .readingRequest i) : Heard cipher peer { s with serving } :=
  { h with tagged := fun i heq => absurd heq (hto i) }

/-- An event that is neither a request nor an answer. -/
theorem concat (h : Heard cipher peer s) (event : Event ι)
    (hb : ∀ i request, event ≠ .began i request)
    (hr : ∀ i answer, event ≠ .returned i (.ok answer)) :
    Heard cipher peer { s with history := s.history ++ [event] } :=
  { h with
    began := fun i request hmem => (List.mem_append.mp hmem).elim (h.began i request)
      fun hnew => absurd (List.mem_singleton.mp hnew).symm (hb i request)
    returned := fun i answer hmem => (List.mem_append.mp hmem).elim (h.returned i answer)
      fun hnew => absurd (List.mem_singleton.mp hnew).symm (hr i answer) }

variable [DecidableEq ι]

/-- A call that goes on waits only if it is one of `send`. -/
theorem setStage (h : Heard cipher peer s) (i : ι) (stage : Stage)
    (hwaiting : stage = .waiting → ∃ nonce request, peer i = .send nonce request) :
    Heard cipher peer (s.setStage i stage) :=
  { h with
    waiting := (Function.forall_update_iff s.stage fun j stage =>
      stage = .waiting → ∃ nonce request, peer j = .send nonce request).mpr
        ⟨hwaiting, fun j _ => h.waiting j⟩ }

/-- Nothing that has arrived is taken back. -/
theorem setConnection (h : Heard cipher peer s) {c : Connection}
    (hmore : (s.connection i).arrived <+: c.arrived) :
    Heard cipher peer (s.setConnection i c) :=
  { h with
    tagged := by
      refine (Function.forall_update_iff s.connection fun j c =>
        s.serving = .readingRequest j → ∃ rest, c.arrived = connectionData :: rest).mpr
          ⟨fun hserving => ?_, fun j _ => h.tagged j⟩
      obtain ⟨rest, hrest⟩ := h.tagged i hserving
      obtain ⟨more, heq⟩ := hmore
      exact ⟨rest ++ more, by rw [← heq, hrest]; rfl⟩ }

/-- Every step keeps it. -/
theorem step (h : Heard cipher peer s) (hinv : Inv srv cipher peer tree s)
    (hstep : Step srv cipher peer s s') : Heard cipher peer s' := by
  cases hstep with
  | connect i hidle =>
    exact { (h.setStage i .writing (by simp)).concat (.connected i) (by simp) (by simp) with }
  | write i hstage hmore hbytes => exact h.setConnection (List.prefix_refl _)
  | written i hstage hpeer hok => exact h.setStage i .waiting fun _ => ⟨_, _, hpeer⟩
  | receive i hstage hread =>
    rename_i answer rest
    refine { h.setStage i (.returned (.ok answer)) (by simp) with
      began := fun j request hmem => (List.mem_append.mp hmem).elim (h.began j request) (by simp)
      returned := fun j answer' hmem => ?_ }
    rcases List.mem_append.mp hmem with hold | hnew
    · exact h.returned j answer' hold
    · cases List.mem_singleton.mp hnew
      refine ⟨h.waiting i hstage, ?_⟩
      -- it is read from a part of the response that was written for it
      have hpre := hinv.downstream.received i
      rcases hinv.downstream.answered i with hnil | ⟨all, ⟨nonce, request, result, -, rfl⟩, hall⟩
      · rw [hnil] at hpre
        rw [List.prefix_nil.mp hpre] at hread
        cases hread
      · have hanswer := eq_of_read (hpre.trans hall) hread
        subst hanswer
        exact fits_of_read (hpre.trans hall) hread
  | fail i e hstage =>
    exact (h.setStage i (.returned (.error e)) (by simp)).concat (.returned i (.error e)) (by simp)
      (by simp)
  | carry i hmore hbytes => exact h.setConnection hmore
  | carryBack i hmore hbytes => exact h.setConnection (List.prefix_refl _)
  | accept i hserving hqueue => exact { h with tagged := by simp }
  | acceptFails hserving => exact h.move (by simp)
  | tagFails i hserving => exact h.move (by simp)
  | tagMonitor i hserving htag => exact h.move (by simp)
  | tagOther i hserving htag hne => exact h.move (by simp)
  | tagData i hserving htag =>
    obtain ⟨b, hb, harrived⟩ := readExact_one htag
    cases hb
    refine { h.setConnection (i := i) (c := { s.connection i with
      readTimeout := some 5, writeTimeout := some 5 }) (List.prefix_refl _) with
        tagged := fun j heq => ?_ }
    cases heq
    exact ⟨_, by simpa [System.setConnection] using harrived⟩
  | requestFails i hserving => exact h.move (by simp)
  | request i hserving htag hread =>
    refine { h with
      tagged := by simp
      began := fun j r hmem => ?_
      returned := fun j answer hmem => (List.mem_append.mp hmem).elim (h.returned j answer)
        (by simp) }
    rcases List.mem_append.mp hmem with hold | hnew
    · exact h.began j r hold
    · cases List.mem_singleton.mp hnew
      have hpre := (hinv.upstream.arrived i).trans (hinv.upstream.sent i)
      obtain ⟨rest, hrest⟩ := h.tagged i hserving
      refine asks_of_arrived hpre htag ?_ hread
      rw [hrest] at htag
      cases htag
      rfl
  | dispatch i os nonce hserving =>
    rename_i request
    refine { h.concat (.ended i (srv.dispatch os request s.tree)) (by simp) (by simp) with
      tagged := by simp }
  | respond i hserving hmore hbytes => exact h.setConnection (List.prefix_refl _)
  | responded i hserving => exact h.move (by simp)

/-- What is heard is so in every run. -/
theorem of_reaches (hrun : Reaches srv cipher peer (.start tree) s) : Heard cipher peer s := by
  induction hrun with
  | refl => exact start cipher peer tree
  | tail hrun hstep ih => exact ih.step (Inv.of_reaches hrun) hstep

end Heard

/-- The dispatches that a history lists are exchanges; the answers are those of calls of `send`,
    and fit in frames. -/
theorem exchanges_of_history
    (hresults : ∀ earlier i result later, history = earlier ++ .ended i result :: later →
      ∃ os request, .began i request ∈ earlier ∧
        result = srv.dispatch os request (treeAfter tree earlier))
    (hbegan : ∀ i request, .began i request ∈ history → (peer i).Asks cipher request)
    {calls : List (ι × Option (RpcResult Response))}
    (hcalls : calls.map Prod.fst = (finished history).map Prod.fst)
    (htold : ∀ i answer result, (i, some answer) ∈ calls → .ended i result ∈ history →
      answer = outcome result ∧ (∃ nonce request, peer i = .send nonce request) ∧
        (Message.result answer).Fits) :
    Exchanges srv cipher peer tree calls (treeAfter tree history) := by
  induction history using List.reverseRecOn generalizing calls with
  | nil =>
    cases List.map_eq_nil_iff.mp hcalls
    exact .start
  | append_singleton history event ih =>
    have hold := @ih (split_earlier hresults) fun i request hmem =>
      hbegan i request (List.mem_append_left _ hmem)
    -- an event that ends no dispatch changes nothing
    have hsame : event.ends = none → treeAfter tree (history ++ [event]) = treeAfter tree history →
        Exchanges srv cipher peer tree calls (treeAfter tree (history ++ [event])) :=
      fun hends htree => by
        rw [htree]
        rw [finished_concat, hends, Option.toList_none, List.append_nil] at hcalls
        exact hold hcalls fun i answer result hmem hended =>
          htold i answer result hmem (List.mem_append_left _ hended)
    cases event with
    | ended i result =>
      -- the last call is the one whose dispatch ends
      obtain ⟨os, request, hmem, rfl⟩ := hresults history i result [] rfl
      rw [finished_concat, List.map_append] at hcalls
      obtain ⟨calls, last, rfl, hbefore, hlast⟩ := List.map_eq_append_iff.mp hcalls
      obtain ⟨⟨j, answer⟩, rfl, hj⟩ := List.map_eq_singleton_iff.mp hlast
      cases hj
      have hthen := hold hbefore fun i answer result hmem hended =>
        htold i answer result (List.mem_append_left _ hmem) (List.mem_append_left _ hended)
      have hasks := hbegan i request (List.mem_append_left _ hmem)
      rw [treeAfter_concat]
      cases answer with
      | none => exact .carriedOut os hthen hasks
      | some answer =>
        obtain ⟨rfl, ⟨nonce, request', hpeer⟩, hfits⟩ := htold i answer _
          (List.mem_append_right _ List.mem_cons_self) (List.mem_append_right _ List.mem_cons_self)
        rw [hpeer] at hasks
        obtain ⟨rfl, hreq⟩ := asks_send.mp hasks
        exact .answered os hthen hpeer (exchange_eq_ok.mpr ⟨hreq, hfits, rfl, rfl⟩)
    | connected i => exact hsame rfl (treeAfter_concat tree _)
    | began i request => exact hsame rfl (treeAfter_concat tree _)
    | returned i result => exact hsame rfl (treeAfter_concat tree _)

/-! ### The exchanges are runs -/

/-- Everybody is served who has connected, and the others have not begun. -/
structure Rested (s : System ι) (done : List ι) : Prop where
  serving : s.serving = .accepting
  queue   : s.queue = []
  fresh   : ∀ i, i ∉ done → s.stage i = .idle ∧ s.connection i = {}

/-- At the start everybody rests. -/
theorem Rested.start (tree : Tree) : Rested (System.start tree : System ι) [] :=
  ⟨rfl, rfl, fun _ _ => ⟨rfl, rfl⟩⟩

variable [DecidableEq ι] {s : System ι} {done : List ι}

/-- The peer has connected, and its request has been read. -/
structure Begins (s : System ι) (i : ι) (request : Request) (script : List UInt8)
    (s' : System ι) : Prop where
  serving : s'.serving = .dispatching i request
  queue   : s'.queue = []
  stage   : s'.stage i = .writing
  own     : s'.connection i
    = { sent := script, arrived := script, readTimeout := some 5, writeTimeout := some 5 }
  others  : ∀ j, j ≠ i → s'.stage j = s.stage j ∧ s'.connection j = s.connection j
  tree    : s'.tree = s.tree
  history : s'.history = s.history ++ [.connected i, .began i request]

/-- Who has not begun can connect and have its request read. -/
theorem exists_begins (srv : RpcServer) (hrested : Rested s done) (hi : i ∉ done)
    (hasks : (peer i).Asks cipher request) :
    ∃ s', Reaches srv cipher peer s s' ∧ Begins s i request ((peer i).script cipher) s' := by
  obtain ⟨rest, rest', hscript, hread⟩ := hasks
  obtain ⟨hidle, hfresh⟩ := hrested.fresh i hi
  have hpre := List.prefix_refl ((peer i).script cipher)
  have htag : readExact 1 ((peer i).script cipher) = .ok [connectionData] rest := by
    rw [hscript]
    rfl
  refine ⟨_, ((((((Relation.ReflTransGen.refl.tail
    (.connect i hidle)).tail
    (.write i (by simp [System.setStage]) (by simp [System.setStage, hfresh]) hpre)).tail
    (.carry i (by simp [System.setStage, System.setConnection, hfresh])
      (show (peer i).script cipher <+: _ by simp [System.setStage, System.setConnection]))).tail
    (.accept i hrested.serving (show s.queue ++ [i] = i :: [] by rw [hrested.queue]; rfl))).tail
    (.tagData i rfl ((congrArg (readExact 1)
      (by simp [System.setStage, System.setConnection])).trans htag))).tail
    (.request i rfl ((congrArg (readExact 1)
      (by simp [System.setStage, System.setConnection])).trans htag) hread)), ?_⟩
  constructor
  · rfl
  · rfl
  · simp [System.setStage, System.setConnection]
  · simp [System.setStage, System.setConnection, hfresh]
  · intro j hj
    simp [System.setStage, System.setConnection, hj]
  · rfl
  · simp [System.setStage, System.setConnection]

/-- What a call of `send` leaves when its request fits in a frame. -/
theorem writeRequest_of_fits {nonce : Nonce} (hfits : (Message.request request).Fits) :
    writeRequest cipher nonce request []
      = .ok () ((Peer.send nonce request).script cipher) := by
  obtain ⟨bytes, hframe⟩ := (frame_ok_iff cipher Request.codec nonce request).mpr hfits
  rw [script_send]
  show writeMessage cipher Request.codec nonce request [connectionData] = _
  rw [writeMessage_apply, writeMessage_apply, hframe]
  rfl

/-- A request is carried out, and the peer hears no more of it. -/
theorem exists_carriedOut (srv : RpcServer) (hrested : Rested s done) (hi : i ∉ done)
    (hasks : (peer i).Asks cipher request) (os : Os) (nonce : Nonce) :
    ∃ s', Reaches srv cipher peer s s' ∧ Rested s' (done ++ [i]) ∧
      s'.tree = final (srv.dispatch os request s.tree) ∧
      s'.history = s.history ++ [.connected i, .began i request,
        .ended i (srv.dispatch os request s.tree)] := by
  obtain ⟨s₁, hrun, hb⟩ := exists_begins srv hrested hi hasks
  refine ⟨_, (hrun.tail (.dispatch i os nonce hb.serving)).tail (.responded i rfl),
    ⟨rfl, hb.queue, fun j hj => ?_⟩, ?_, ?_⟩
  · simp only [List.mem_append, List.mem_singleton, not_or] at hj
    obtain ⟨hstage, hconnection⟩ := hb.others j hj.2
    obtain ⟨hidle, hfresh⟩ := hrested.fresh j hj.1
    exact ⟨hstage.trans hidle, hconnection.trans hfresh⟩
  · show final (srv.dispatch os request s₁.tree) = _
    rw [hb.tree]
  · show s₁.history ++ [.ended i (srv.dispatch os request s₁.tree)] = _
    rw [hb.tree, hb.history, List.append_assoc]
    rfl

/-- A call is carried out, and answered under any nonce. -/
theorem exists_answered (hrested : Rested s done) (hi : i ∉ done) {nonce : Nonce}
    (hpeer : peer i = .send nonce request) {os : Os} {answer : RpcResult Response} {t' : Tree}
    (hexchange : srv.exchange os request s.tree = .ok answer t') (reply : Nonce) :
    ∃ s', Reaches srv cipher peer s s' ∧ Rested s' (done ++ [i]) ∧ s'.tree = t' ∧
      s'.history = s.history ++ [.connected i, .began i request,
        .ended i (srv.dispatch os request s.tree), .returned i (.ok answer)] := by
  obtain ⟨hreq, hres, rfl, rfl⟩ := exchange_eq_ok.mp hexchange
  have hasks : (peer i).Asks cipher request := by
    rw [hpeer]
    exact asks_send.mpr ⟨rfl, hreq⟩
  obtain ⟨s₁, hrun, hb⟩ := exists_begins srv hrested hi hasks
  -- the response is a frame, from which the answer is read
  obtain ⟨bytes, hframe⟩ := (frame_ok_iff cipher RpcResult.codec reply
    (outcome (srv.dispatch os request s.tree))).mpr hres
  have hwrite : final (writeMessage cipher RpcResult.codec reply
      (outcome (srv.dispatch os request s₁.tree)) []) = bytes := by
    rw [hb.tree, writeMessage_apply, hframe]
    rfl
  have hread := readMessage_frame_nil cipher RpcResult.codec hframe
  have hok : writeRequest cipher nonce request [] = .ok () (s₁.connection i).sent := by
    rw [hb.own, hpeer]
    exact writeRequest_of_fits hreq
  refine ⟨_, ((((((hrun.tail
    (.written i hb.stage hpeer hok)).tail
    (.dispatch i os reply hb.serving)).tail
    (.respond i rfl (by simp [System.setStage, hb.own])
      (show bytes <+: _ by rw [← hwrite]; exact List.prefix_refl _))).tail
    (.carryBack i (by simp [System.setStage, System.setConnection, hb.own])
      (show bytes <+: _ by simp [System.setConnection]))).tail
    (.receive i (by simp [System.setStage, System.setConnection])
      ((congrArg (readMessage cipher RpcResult.codec)
        (by simp [System.setConnection])).trans hread))).tail
    (.responded i rfl)), ⟨rfl, hb.queue, fun j hj => ?_⟩, ?_, ?_⟩
  · simp only [List.mem_append, List.mem_singleton, not_or] at hj
    obtain ⟨hstage, hconnection⟩ := hb.others j hj.2
    obtain ⟨hidle, hfresh⟩ := hrested.fresh j hj.1
    simp [System.returns, System.setStage, System.setConnection, hj.2, hstage, hidle, hconnection,
      hfresh]
  · show final (srv.dispatch os request s₁.tree) = _
    rw [hb.tree]
  · show s₁.history ++ [.ended i (srv.dispatch os request s₁.tree)] ++ [_] = _
    rw [hb.tree, hb.history, List.append_assoc, List.append_assoc]
    rfl

/-! ### Both ways -/

/-- Nobody's dispatch ends twice. -/
theorem nodup_finished (hrun : Reaches srv cipher peer (.start tree) s) :
    ((finished s.history).map Prod.fst).Nodup := by
  have h := Inv.of_reaches hrun
  have hnodup := h.established.once.sublist h.inLine.begun_sublist
  rw [begun_eq hrun] at hnodup
  exact hnodup.sublist (List.sublist_append_left _ _)

/-- The exchanges can be run one after another. -/
theorem exists_run {calls : List (ι × Option (RpcResult Response))}
    (h : Exchanges srv cipher peer tree calls t) (hnodup : (calls.map Prod.fst).Nodup) :
    ∃ s, Reaches srv cipher peer (.start tree) s ∧ Rested s (calls.map Prod.fst) ∧ s.tree = t ∧
      (finished s.history).map Prod.fst = calls.map Prod.fst ∧
      ∀ i answer, (i, some answer) ∈ calls → .returned i (.ok answer) ∈ s.history := by
  induction h with
  | start => exact ⟨_, .refl, .start tree, rfl, rfl, by simp⟩
  | answered os h hpeer hexchange ih =>
    rename_i i nonce request answer t'
    rw [List.map_append, List.nodup_append] at hnodup
    obtain ⟨hcalls, -, hnew⟩ := hnodup
    obtain ⟨s, hrun, hrested, rfl, hfinished, htold⟩ := ih hcalls
    obtain ⟨s', hstep, hrested', htree, hhistory⟩ := exists_answered hrested
      (fun hi => hnew i hi i (by simp) rfl) hpeer hexchange nonce
    refine ⟨s', hrun.trans hstep, by rwa [List.map_append], htree, ?_, fun j answer' hmem => ?_⟩
    · rw [hhistory, List.map_append, ← hfinished, finished, List.filterMap_append, List.map_append]
      rfl
    · rw [hhistory]
      rcases List.mem_append.mp hmem with hold | hlast
      · exact List.mem_append_left _ (htold j answer' hold)
      · cases List.mem_singleton.mp hlast
        simp
  | carriedOut os h hasks ih =>
    rename_i i request
    rw [List.map_append, List.nodup_append] at hnodup
    obtain ⟨hcalls, -, hnew⟩ := hnodup
    obtain ⟨s, hrun, hrested, rfl, hfinished, htold⟩ := ih hcalls
    obtain ⟨s', hstep, hrested', htree, hhistory⟩ := exists_carriedOut srv hrested
      (fun hi => hnew i hi i (by simp) rfl) hasks os ⟨List.replicate 12 0, List.length_replicate⟩
    refine ⟨s', hrun.trans hstep, by rwa [List.map_append], htree, ?_, fun j answer hmem => ?_⟩
    · rw [hhistory, List.map_append, ← hfinished, finished, List.filterMap_append, List.map_append]
      rfl
    · rw [hhistory]
      rcases List.mem_append.mp hmem with hold | hlast
      · exact List.mem_append_left _ (htold j answer hold)
      · cases List.mem_singleton.mp hlast

/-- **The network carries out exchanges, and nothing else.**  These callers are served in this
    order, with these answers and this tree, in some run of peers, bytes and the serving thread,
    if and only if one exchange after another gives them. -/
theorem exchanges_iff (srv : RpcServer) (cipher : RpcCipher) (peer : ι → Peer) (tree t : Tree)
    (calls : List (ι × Option (RpcResult Response))) :
    (Exchanges srv cipher peer tree calls t ∧ (calls.map Prod.fst).Nodup) ↔
      ∃ s, Reaches srv cipher peer (.start tree) s ∧ s.tree = t ∧
        (finished s.history).map Prod.fst = calls.map Prod.fst ∧
        ∀ i answer, (i, some answer) ∈ calls → .returned i (.ok answer) ∈ s.history := by
  constructor
  · rintro ⟨h, hnodup⟩
    obtain ⟨s, hrun, -, htree, hfinished, htold⟩ := exists_run h hnodup
    exact ⟨s, hrun, htree, hfinished, htold⟩
  · rintro ⟨s, hrun, rfl, hfinished, htold⟩
    have h := Inv.of_reaches hrun
    have hheard := Heard.of_reaches hrun
    have hnodup := nodup_finished hrun
    refine ⟨?_, hfinished ▸ hnodup⟩
    rw [h.inTurn.tree_eq]
    refine exchanges_of_history h.inTurn.results hheard.began hfinished.symm
      fun i answer result hmem hended => ?_
    have hret := htold i answer hmem
    obtain ⟨hpeer, hfits⟩ := hheard.returned i answer hret
    -- the dispatch that is answered is the only one of this call
    obtain ⟨request, result', hsub, rfl⟩ := h.downstream.returned i answer hret
    have hmem : (i, outcome result) ∈ finished s.history :=
      List.mem_filterMap.mpr ⟨_, hended, rfl⟩
    have hmem' : (i, outcome result') ∈ finished s.history :=
      List.mem_filterMap.mpr ⟨.ended i result', hsub.subset (by simp), rfl⟩
    have hsame := List.inj_on_of_nodup_map hnodup hmem' hmem rfl
    exact ⟨congrArg Prod.snd hsame, hpeer, hfits⟩

end Netfilum
