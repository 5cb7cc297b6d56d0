import Netfilum.Connections.Calls
import Netfilum.Server.Refines

namespace Netfilum

open Crypto History Posix Program Rust RpcServer
open scoped List

/-!
# The file service that callers share

Whatever the order in which peers, the network and the serving thread take their steps, the
callers see one file service that carries out their requests one after another, each between
the call and its return.

* `Ordered` — a history lists the dispatches, each on the tree that those before it have left.
* `begun_eq` — what has begun has ended, but for the request that is being dispatched.
* `Linearized`, `linearized_of_reaches` — the calls of every run are those of the service.
-/

variable {ι : Type} {history : List (Event ι)} {i j : ι}

/-! ### The dispatches of a history -/

/-- The end of a dispatch, with its reply. -/
def Event.ends : Event ι → Option (ι × RpcResult Response)
  | .ended i result => some (i, outcome result)
  | _               => none

/-- The peers whose dispatches have ended, in this order, each with its reply. -/
def finished (history : List (Event ι)) : List (ι × RpcResult Response) :=
  history.filterMap Event.ends

/-- One more event, and a reply if it ends a dispatch. -/
theorem finished_concat (event : Event ι) :
    finished (history ++ [event]) = finished history ++ event.ends.toList := by
  unfold finished
  rw [List.filterMap_append]
  cases event <;> rfl

/-- The peer whose request is being dispatched. -/
def Serving.current : Serving ι → List ι
  | .dispatching i _ => [i]
  | _                => []

/-- What has begun has ended, but for the request that is being dispatched. -/
theorem begun_eq [DecidableEq ι] {srv : RpcServer} {cipher : RpcCipher} {peer : ι → Peer}
    {tree : Tree} {s : System ι} (hrun : Reaches srv cipher peer (.start tree) s) :
    begun s.history = (finished s.history).map Prod.fst ++ s.serving.current := by
  induction hrun with
  | refl => rfl
  | tail _ hstep ih =>
    cases hstep with
    | connect i hidle =>
      simpa [System.setStage, begun_concat, finished_concat, Event.begins, Event.ends] using ih
    | receive i hstage hread =>
      simpa [System.returns, System.setStage, begun_concat, finished_concat, Event.begins,
        Event.ends] using ih
    | fail i e hstage =>
      simpa [System.returns, System.setStage, begun_concat, finished_concat, Event.begins,
        Event.ends] using ih
    | write i hstage hmore hbytes => exact ih
    | written i hstage hpeer hok => exact ih
    | carry i hmore hbytes => exact ih
    | carryBack i hmore hbytes => exact ih
    | respond i hserving hmore hbytes => exact ih
    -- the serving thread goes on, without a dispatch
    | accept i hserving hqueue => simpa [hserving, Serving.current] using ih
    | acceptFails hserving => simpa [hserving, Serving.current] using ih
    | tagFails i hserving => simpa [hserving, Serving.current] using ih
    | tagMonitor i hserving htag => simpa [hserving, Serving.current] using ih
    | tagOther i hserving htag hne => simpa [hserving, Serving.current] using ih
    | tagData i hserving htag =>
      simpa [hserving, Serving.current, System.setConnection] using ih
    | requestFails i hserving => simpa [hserving, Serving.current] using ih
    | responded i hserving => simpa [hserving, Serving.current] using ih
    -- a dispatch begins, and ends
    | request i hserving htag hread =>
      rw [hserving] at ih
      simpa [Serving.current, begun_concat, finished_concat, Event.begins, Event.ends] using ih
    | dispatch i os nonce hserving =>
      rw [hserving] at ih
      simpa [Serving.current, begun_concat, finished_concat, Event.begins, Event.ends] using ih

/-! ### Replies in their order -/

section

variable {srv : RpcServer} {tree : Tree} {calls : List (Os × Request)}

/-- Every call has its reply. -/
theorem map_fst_replies (srv : RpcServer) (tree : Tree) (calls : List (Os × Request)) :
    (srv.replies tree calls).map Prod.fst = calls := by
  induction calls generalizing tree with
  | nil => rfl
  | cons call calls ih => exact congrArg (call :: ·) (ih _)

/-- There are as many replies as calls. -/
theorem length_replies (srv : RpcServer) (tree : Tree) (calls : List (Os × Request)) :
    (srv.replies tree calls).length = calls.length := by
  have hlength := congrArg List.length (map_fst_replies srv tree calls)
  rwa [List.length_map] at hlength

/-- The reply to one more call is given on the tree that the others have left. -/
theorem replies_concat (srv : RpcServer) (tree : Tree) (calls : List (Os × Request))
    (call : Os × Request) : srv.replies tree (calls ++ [call]) = srv.replies tree calls
      ++ [(call, outcome (srv.dispatch call.1 call.2 (srv.left tree calls)))] := by
  induction calls generalizing tree with
  | nil => rfl
  | cons first calls ih => exact congrArg (_ :: ·) (ih _)

/-- One more call leaves the tree that it makes of what the others have left. -/
theorem left_concat (srv : RpcServer) (tree : Tree) (calls : List (Os × Request))
    (call : Os × Request) : srv.left tree (calls ++ [call])
      = final (srv.dispatch call.1 call.2 (srv.left tree calls)) := by
  unfold left
  rw [List.foldl_concat]

/-- One more call is careful if it is covered where it comes. -/
theorem careful_concat {call : Os × Request} (h : srv.Careful tree calls)
    (hcall : srv.Covered call.1 (srv.left tree calls) call.2) :
    srv.Careful tree (calls ++ [call]) := by
  induction calls generalizing tree with
  | nil => exact ⟨hcall, trivial⟩
  | cons first calls ih => exact ⟨h.1, ih h.2 hcall⟩

end

/-- The history lists these dispatches: each with the reply it has on the tree that those before
    it have left, and after its request has begun. -/
structure Ordered (srv : RpcServer) (tree : Tree) (history : List (Event ι))
    (order : List (ι × Os × Request)) : Prop where
  finished : finished history
    = List.zipWith (fun o reply => (o.1, reply.2)) order (srv.replies tree (order.map Prod.snd))
  tree     : treeAfter tree history = srv.left tree (order.map Prod.snd)
  began    : ∀ o ∈ order, .began o.1 o.2.2 ∈ history

/-- The request of every dispatch is covered where it comes. -/
def CarefulRun (srv : RpcServer) (tree : Tree) (history : List (Event ι)) : Prop :=
  ∀ earlier i result later, history = earlier ++ .ended i result :: later →
    ∀ os request, .began i request ∈ earlier → srv.Covered os (treeAfter tree earlier) request

/-- What every prefix of a history has, if the whole has it. -/
theorem split_earlier {P : List (Event ι) → ι → EStateM.Result RpcError Tree Response → Prop}
    {event : Event ι}
    (h : ∀ earlier i result later, history ++ [event] = earlier ++ .ended i result :: later →
      P earlier i result) :
    ∀ earlier i result later, history = earlier ++ .ended i result :: later →
      P earlier i result := fun earlier i result later heq =>
  h earlier i result (later ++ [event]) (by rw [heq]; simp)

/-- The dispatches of a history, one after another. -/
theorem exists_order {srv : RpcServer} {tree : Tree}
    (hresults : ∀ earlier i result later, history = earlier ++ .ended i result :: later →
      ∃ os request, .began i request ∈ earlier ∧
        result = srv.dispatch os request (treeAfter tree earlier))
    (hcareful : CarefulRun srv tree history) :
    ∃ order, Ordered srv tree history order ∧ srv.Careful tree (order.map Prod.snd) := by
  induction history using List.reverseRecOn with
  | nil => exact ⟨[], ⟨rfl, rfl, by simp⟩, trivial⟩
  | append_singleton history event ih =>
    obtain ⟨order, hordered, hcalls⟩ := ih (split_earlier hresults) (split_earlier hcareful)
    -- an event that ends no dispatch changes nothing
    have hsame : event.ends = none → treeAfter tree (history ++ [event]) = treeAfter tree history →
        ∃ order, Ordered srv tree (history ++ [event]) order ∧
          srv.Careful tree (order.map Prod.snd) := fun hends htree =>
      ⟨order, ⟨by rw [finished_concat, hends, hordered.finished]; simp, htree.trans hordered.tree,
        fun o ho => List.mem_append_left _ (hordered.began o ho)⟩, hcalls⟩
    cases event with
    | ended i result =>
      obtain ⟨os, request, hbegan, rfl⟩ := hresults history i result [] rfl
      have hcovered := hcareful history i _ [] rfl os request hbegan
      rw [hordered.tree] at hcovered ⊢
      have hlength : order.length = (srv.replies tree (order.map Prod.snd)).length := by
        rw [length_replies, List.length_map]
      refine ⟨order ++ [(i, os, request)], ⟨?_, ?_, fun o ho => ?_⟩, ?_⟩
      · rw [finished_concat, hordered.finished, List.map_append, List.map_singleton,
          replies_concat, List.zipWith_append hlength]
        rfl
      · rw [treeAfter_concat, List.map_append, List.map_singleton, left_concat]
      · rcases List.mem_append.mp ho with hold | hnew
        · exact List.mem_append_left _ (hordered.began o hold)
        · rw [List.mem_singleton.mp hnew]
          exact List.mem_append_left _ hbegan
      · rw [List.map_append]
        exact careful_concat hcalls hcovered
    | connected i => exact hsame rfl (treeAfter_concat tree _)
    | began i request => exact hsame rfl (treeAfter_concat tree _)
    | returned i result => exact hsame rfl (treeAfter_concat tree _)

/-- The dispatches that are listed are those that have ended. -/
theorem Ordered.peers {srv : RpcServer} {tree : Tree} {order : List (ι × Os × Request)}
    (h : Ordered srv tree history order) :
    (Netfilum.finished history).map Prod.fst = order.map Prod.fst := by
  rw [h.finished, List.map_zipWith]
  refine List.ext_getElem ?_ fun k hk hk' => ?_
  · rw [List.length_zipWith, List.length_map, length_replies, List.length_map, Nat.min_self]
  · rw [List.getElem_zipWith, List.getElem_map]

/-! ### The service that callers see -/

/-- The calls of a run are those of one file service, which carries them out in this order. -/
structure Linearized {srv : RpcServer} {tree : Tree} (h : srv.Plain tree) (peer : ι → Peer)
    (s : System ι) (order : List (ι × Os × Request)) : Prop where
  /-- Nobody's request is carried out twice, or before it was asked for, -/
  once     : (order.map Prod.fst).Nodup
  began    : ∀ o ∈ order, .began o.1 o.2.2 ∈ s.history
  own      : ∀ o ∈ order, ∀ nonce request, peer o.1 = .send nonce request → o.2.2 = request
  /-- what a call returns is the answer of the service to its request, -/
  answered : ∀ i answer, .returned i (.ok answer) ∈ s.history →
    ∃ (k : Nat) (os : Os) (request : Request) (a : _), order[k]? = some (i, os, request) ∧
      (h.view.trace asCommand (order.map Prod.snd))[k]? = some ((os, request), a) ∧
      Tells request.command answer a
  /-- a call that returned before another connected is carried out before it, -/
  respects : ∀ i j v, [.returned i v, .connected j] <+ s.history → i ∈ order.map Prod.fst →
    j ∈ order.map Prod.fst → [i, j] <+ order.map Prod.fst
  /-- and the server's tree is the one of the service. -/
  tree     : ∃ h' : srv.Plain s.tree, h'.view = h.view.after asCommand (order.map Prod.snd)

/-- The call whose reply stands at a place of the order. -/
theorem Ordered.answer {srv : RpcServer} {tree : Tree} {order : List (ι × Os × Request)}
    (h : Ordered srv tree history order) (hplain : srv.Plain tree)
    (hcareful : srv.Careful tree (order.map Prod.snd)) {answer : RpcResult Response}
    (hmem : (i, answer) ∈ Netfilum.finished history) :
    ∃ (k : Nat) (os : Os) (request : Request) (a : _), order[k]? = some (i, os, request) ∧
        (hplain.view.trace asCommand (order.map Prod.snd))[k]? = some ((os, request), a) ∧
        Tells request.command answer a := by
  obtain ⟨hreplied, -⟩ := hplain.replied hcareful
  rw [h.finished] at hmem
  obtain ⟨k, hk, heq⟩ := List.getElem_of_mem hmem
  rw [List.getElem_zipWith] at heq
  rw [List.length_zipWith] at hk
  have horder : k < order.length := hk.trans_le (Nat.min_le_left _ _)
  have hreply := hk.trans_le (Nat.min_le_right _ _)
  have htrace := hreplied.length_eq ▸ hreply
  obtain ⟨hcall, htells⟩ := hreplied.get hreply htrace
  -- the reply stands where its call does
  have hfst : (srv.replies tree (order.map Prod.snd))[k].1 = order[k].2 := by
    have hmap := congrArg (fun calls => calls[k]?) (map_fst_replies srv tree (order.map Prod.snd))
    simpa [List.getElem?_map, List.getElem?_eq_getElem hreply, List.getElem?_eq_getElem horder]
      using hmap
  obtain ⟨hpeer, hanswer⟩ := Prod.mk.inj heq
  rw [List.get_eq_getElem, List.get_eq_getElem] at hcall htells
  rw [hfst] at hcall htells
  rw [hanswer] at htells
  refine ⟨k, order[k].2.1, order[k].2.2,
    ((hplain.view.trace asCommand (order.map Prod.snd)).get ⟨k, htrace⟩).2, ?_, ?_, htells⟩
  · rw [List.getElem?_eq_getElem horder, ← hpeer]
  · rw [List.getElem?_eq_getElem htrace, hcall]
    rfl

/-- What has ended before another dispatch began has ended before this has ended. -/
theorem finished_of_apart {r' : Request} {result result' : EStateM.Result RpcError Tree Response}
    (hnodup : (begun history).Nodup) (hapart : [.ended i result, .began j r'] <+ history)
    (hended : [.began j r', .ended j result'] <+ history) :
    [(i, outcome result), (j, outcome result')] <+ finished history := by
  obtain ⟨earlier, later, rfl, hbegan⟩ := split_before hended
  -- it does not begin again
  have honce : Event.began j r' ∉ .ended j result' :: later := fun hmem => by
    have hlater : Event.began j r' ∈ later := (List.mem_cons.mp hmem).resolve_left (by simp)
    have hsub : [Event.began j r', .began j r'] <+ earlier ++ .ended j result' :: later :=
      (List.singleton_sublist.mpr hbegan).append ((List.singleton_sublist.mpr hlater).cons _)
    exact List.nodup_iff_sublist.mp hnodup j (hsub.filterMap Event.begins)
  have hi := mem_of_before hapart honce
  have hsub : [Event.ended i result, .ended j result'] <+ earlier ++ .ended j result' :: later :=
    (List.singleton_sublist.mpr hi).append (List.singleton_sublist.mpr List.mem_cons_self)
  exact hsub.filterMap Event.ends

/-- **Linearizability.**  In every run, in whatever order the peers, the network and the serving
    thread take their steps, the callers see one file service that carries out their requests
    one after another, each between the call and its return. -/
theorem linearized_of_reaches [DecidableEq ι] (srv : RpcServer) (cipher : RpcCipher)
    (peer : ι → Peer) (tree : Tree) (s : System ι) (hplain : srv.Plain tree)
    (hrun : Reaches srv cipher peer (.start tree) s) (hcareful : CarefulRun srv tree s.history) :
    ∃ order, Linearized hplain peer s order := by
  have h := Inv.of_reaches hrun
  have hnodup : (begun s.history).Nodup := h.established.once.sublist h.inLine.begun_sublist
  obtain ⟨order, hordered, hcalls⟩ := exists_order h.inTurn.results hcareful
  have hpeers := hordered.peers
  have hended : ∀ i ∈ (finished s.history).map Prod.fst, ∃ r result, .began i r ∈ s.history ∧
      [.began i r, .ended i result] <+ s.history := by
    intro i hi
    obtain ⟨⟨i, reply⟩, hmem, rfl⟩ := List.mem_map.mp hi
    obtain ⟨event, hevent, hends⟩ := List.mem_filterMap.mp hmem
    cases event with
    | ended i' result =>
      cases hends
      obtain ⟨earlier, later, heq⟩ := List.append_of_mem hevent
      obtain ⟨os, r, hr, -⟩ := h.inTurn.results earlier _ result later heq
      rw [heq]
      exact ⟨r, result, List.mem_append_left _ hr,
        (List.singleton_sublist.mpr hr).append (List.singleton_sublist.mpr List.mem_cons_self)⟩
    | connected i' => cases hends
    | began i' request => cases hends
    | returned i' result => cases hends
  refine ⟨order, ?_, hordered.began, fun o ho nonce request hpeer => ?_, fun i answer hret => ?_,
    fun i j v hsub hi hj => ?_, ?_⟩
  · -- what has ended had begun, once
    rw [← hpeers]
    rw [begun_eq hrun] at hnodup
    exact hnodup.sublist (List.sublist_append_left _ _)
  · exact h.upstream.own _ nonce request _ hpeer (hordered.began o ho)
  · obtain ⟨request, result, hsub, rfl⟩ := h.downstream.returned i answer hret
    refine hordered.answer hplain hcalls (List.mem_filterMap.mpr ⟨.ended i result, ?_, rfl⟩)
    exact hsub.subset (by simp)
  · rw [← hpeers] at hi hj ⊢
    -- both requests have begun, and ended
    obtain ⟨ri, -, hbegani, -⟩ := hended i hi
    obtain ⟨rj, resultj, hbeganj, hendedj⟩ := hended j hj
    have hbefore := h.inLine.ordered h.established hsub hbegani hbeganj
    obtain ⟨resulti, hapart⟩ := h.inTurn.apart i ri j rj hbefore
    have hends := finished_of_apart hnodup ((List.sublist_cons_self _ _).trans hapart) hendedj
    exact hends.map Prod.fst
  · obtain ⟨-, h', hview⟩ := hplain.replied hcalls
    rw [h.inTurn.tree_eq, hordered.tree]
    exact ⟨h', hview⟩

/-- Whatever mild requests are dispatched on a plain tree, without links in the path of the root,
    they are covered where they come. -/
theorem carefulRun_of_mild {srv : RpcServer} {tree : Tree} (hplain : srv.Plain tree)
    (hroot : srv.root.names = srv.rootReal)
    (hresults : ∀ earlier i result later, history = earlier ++ .ended i result :: later →
      ∃ os request, .began i request ∈ earlier ∧
        result = srv.dispatch os request (treeAfter tree earlier))
    (hmild : ∀ i request, .began i request ∈ history → Mild request) :
    CarefulRun srv tree history ∧ srv.Plain (treeAfter tree history) := by
  have hcover : ∀ {t : Tree} (os : Os) {request : Request}, srv.Plain t → Mild request →
      srv.Covered os t request := fun os _ ht hr =>
    (careful_of_mild ht hroot (List.forall_mem_singleton.mpr hr) : srv.Careful _ [(os, _)]).1
  induction history using List.reverseRecOn with
  | nil =>
    refine ⟨fun earlier _ _ _ heq => ?_, hplain⟩
    cases earlier <;> cases heq
  | append_singleton history event ih =>
    have hold : ∀ i request, .began i request ∈ history → Mild request := fun i request hmem =>
      hmild i request (List.mem_append_left _ hmem)
    obtain ⟨hcareful, htree⟩ := ih (split_earlier hresults) hold
    refine ⟨fun earlier i result later heq os request hbegan => ?_, ?_⟩
    · rcases split_concat heq with ⟨later', hsplit⟩ | ⟨rfl, -⟩
      · exact hcareful earlier i result later' hsplit os request hbegan
      · exact hcover os htree (hold i request hbegan)
    · rw [treeAfter_concat]
      cases event with
      | ended i result =>
        obtain ⟨os, request, hbegan, rfl⟩ := hresults history i result [] rfl
        exact (does_dispatch htree (hcover os htree (hold i request hbegan))).tree.1
      | connected i => exact htree
      | began i request => exact htree
      | returned i result => exact htree

/-- Two callers that remove the same file. -/
def removing : Bool → Peer
  | false => .send (nonceEnding 2) (.removeFile "f")
  | true  => .send (nonceEnding 4) (.removeFile "f")

/-- Both connect before either is served, and the second is told that there is no such file before
    the first is told that it is removed. -/
theorem linearized_of_reaches_remove : ∃ s,
    Reaches RpcServer.serverAtR removeCipher removing (.start treeWithFile) s ∧
      [.returned true (.ok (.error notFound)), .returned false (.ok (.ok .empty))] <+ s.history ∧
      ∃ order, Linearized treeWithFile_plain removing s order := by
  let removed := RpcServer.serverAtR.dispatch (.atTime ⟨1, 0⟩) (.removeFile "f") treeWithFile
  let missed := RpcServer.serverAtR.dispatch (.atTime ⟨2, 0⟩) (.removeFile "f") (final removed)
  have hscript : connectionData :: frameOf removeRecord <+: (removing false).script removeCipher :=
    List.prefix_refl (connectionData :: frameOf removeRecord)
  have hscript' : connectionData :: frameOf removeAgainRecord
      <+: (removing true).script removeCipher :=
    List.prefix_refl (connectionData :: frameOf removeAgainRecord)
  -- what the server writes
  have hremoved : frameOf removedRecord <+: final (writeMessage removeCipher RpcResult.codec
      (nonceEnding 3) (outcome removed) []) := by
    rw [show outcome removed = .ok .empty by decide]
    exact List.prefix_refl (frameOf removedRecord)
  have hmissed : frameOf notFoundRecord <+: final (writeMessage removeCipher RpcResult.codec
      (nonceEnding 1) (outcome missed) []) := by
    rw [show outcome missed = .error notFound by decide]
    exact List.prefix_refl (frameOf notFoundRecord)
  obtain ⟨s, hhistory, hrun⟩ : ∃ s, s.history = [.connected false, .connected true,
      .began false (.removeFile "f"), .ended false removed, .began true (.removeFile "f"),
      .ended true missed, .returned true (.ok (.error notFound)),
      .returned false (.ok (.ok .empty))] ∧
      Reaches RpcServer.serverAtR removeCipher removing (.start treeWithFile) s :=
    ⟨_, rfl, (((((((((((((((((((((((Relation.ReflTransGen.refl.tail
      (.connect false rfl)).tail
      (.connect true rfl)).tail
      (.write true rfl List.nil_prefix hscript')).tail
      (.write false rfl List.nil_prefix hscript)).tail
      (.written true rfl rfl rfl)).tail
      (.written false rfl rfl rfl)).tail
      (.carry false List.nil_prefix (List.prefix_refl _))).tail
      (.carry true List.nil_prefix (List.prefix_refl _))).tail
      (.accept false rfl rfl)).tail
      (.tagData false rfl rfl)).tail
      (.request false rfl rfl read_removeRecord)).tail
      (.dispatch false (.atTime ⟨1, 0⟩) (nonceEnding 3) rfl)).tail
      (.respond false rfl List.nil_prefix hremoved)).tail
      (.responded false rfl)).tail
      (.accept true rfl rfl)).tail
      (.tagData true rfl rfl)).tail
      (.request true rfl rfl read_removeAgainRecord)).tail
      (.dispatch true (.atTime ⟨2, 0⟩) (nonceEnding 1) rfl)).tail
      (.respond true rfl List.nil_prefix hmissed)).tail
      (.responded true rfl)).tail
      (.carryBack true List.nil_prefix (List.prefix_refl _))).tail
      (.receive true rfl read_notFoundRecord)).tail
      (.carryBack false List.nil_prefix (List.prefix_refl _))).tail
      (.receive false rfl read_removedRecord)⟩
  have hmild : ∀ i request, .began i request ∈ s.history → Mild request := by
    intro i request hmem
    rw [hhistory] at hmem
    simp only [List.mem_cons, List.not_mem_nil, or_false, reduceCtorEq, false_or,
      Event.began.injEq] at hmem
    rcases hmem with ⟨-, rfl⟩ | ⟨-, rfl⟩ <;> trivial
  refine ⟨s, hrun, ?_, linearized_of_reaches _ _ _ _ _ treeWithFile_plain hrun
    (carefulRun_of_mild treeWithFile_plain rfl (Inv.of_reaches hrun).inTurn.results hmild).1⟩
  rw [hhistory]
  exact (show _ <:+ _ from ⟨[_, _, _, _, _, _], rfl⟩).sublist

end Netfilum
