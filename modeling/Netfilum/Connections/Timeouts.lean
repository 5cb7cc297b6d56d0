import Netfilum.Connections.Calls
import Netfilum.Lib.Run

namespace Netfilum

open Posix Program Temporal

/-!
# Where the serving thread waits

The thread waits for a peer in four places: for the tag of a connection, for the length of
a request, for its payload, and for room to write the response.  `handle_data` bounds the
last three by timeouts; `serve` reads the tag before it.

* `Wired` — the system with its waits: one that no timeout bounds lasts until the peer acts.
* `Moves` — what a step of the system does to the thread and to the queue.
* `Fresh`, `Bounded` — which connections have no timeouts, and which have them.
* `held_of_silent` — a peer that sends nothing has the thread for good.
* `armed_iff_ready` — the runs in which no wait is without a timeout.
-/

/-- The system, with the connections whose end or failure has reached the server: a read
    from one of them returns at once. -/
structure Wired (ι : Type) extends System ι where
  ended : List ι

namespace Wired

variable {ι : Type}

def start (tree : Tree) : Wired ι := ⟨System.start tree, []⟩

variable (s : Wired ι) (i : ι)

/-- The bytes that have arrived do not suffice for the `read_exact` the thread has got to. -/
inductive Lacks : Prop
  /-- `read_exact(&mut tag)` in `serve`. -/
  | tag (hserving : s.serving = .readingTag i) (hshort : (s.connection i).arrived.length < 1)
  /-- `read_exact(&mut len_bytes)` in `read_message`. -/
  | length {tag rest : List UInt8} (hserving : s.serving = .readingRequest i)
    (htag : readExact 1 (s.connection i).arrived = .ok tag rest) (hshort : rest.length < 4)
  /-- `read_exact(&mut payload)` in `read_message`. -/
  | payload {tag rest lenBytes rest' : List UInt8} (hserving : s.serving = .readingRequest i)
    (htag : readExact 1 (s.connection i).arrived = .ok tag rest)
    (hlen : readExact 4 rest = .ok lenBytes rest')
    (hshort : rest'.length < (fromLeBytes lenBytes).toNat)

/-- The thread is blocked reading from a connection. -/
def Reading : Prop := s.Lacks i ∧ i ∉ s.ended

/-- The thread is blocked writing to a connection. -/
def Writing : Prop :=
  ∃ all, s.serving = .writingResponse i all ∧ (s.connection i).answered ≠ all

/-- Wherever the thread is blocked, a timeout of that direction has been set. -/
structure Armed : Prop where
  read  : ∀ i, s.Reading i → (s.connection i).readTimeout.isSome
  write : ∀ i, s.Writing i → (s.connection i).writeTimeout.isSome

/-- The first byte of a connection has arrived, or its end. -/
def Ready : Prop := (s.connection i).arrived ≠ [] ∨ i ∈ s.ended

/-- There is a connection for the thread to accept, or one that it has accepted. -/
def Busy : Prop := s.serving ≠ .stopped ∧ (s.serving = .accepting → s.queue ≠ [])

end Wired

section

variable {ι : Type} [DecidableEq ι] (srv : RpcServer) (cipher : RpcCipher) (peer : ι → Peer)

/-- The steps of the system, except that a wait that no timeout bounds is not over before
    the peer has acted. -/
inductive WiredStep : Wired ι → Wired ι → Prop
  | step {s : Wired ι} {s' : System ι} (hstep : Step srv cipher peer s.toSystem s')
    (hheld : ¬ s.Armed → s'.serving = s.serving) : WiredStep s ⟨s', s.ended⟩
  /-- The end of a connection, or its failure, reaches the server. -/
  | hangUp {s : Wired ι} (i : ι) : WiredStep s { s with ended := i :: s.ended }

/-- A run of the system from a tree, with nobody connected yet. -/
abbrev WiredRun (tree : Tree) : Type := Run (WiredStep srv cipher peer) (Wired.start tree)

variable {srv cipher peer} {tree : Tree}

/-- The thread goes on: `accept` returns the next connection, a read or a write ends when
    the peer acts or the timeout passes, and `dispatch` returns. -/
def Fair (run : WiredRun srv cipher peer tree) : Prop :=
  ∀ n, (∀ m ≥ n, (run.state m).Armed) → (run.state n).Busy →
    ∃ m ≥ n, (run.state (m + 1)).serving ≠ (run.state m).serving

/-- The thread comes to every connection in the queue, unless `accept` fails. -/
def EveryoneServed (run : WiredRun srv cipher peer tree) : Prop :=
  ∀ n, ∀ i ∈ (run.state n).queue,
    ∃ m ≥ n, (run.state m).serving = .readingTag i ∨ (run.state m).serving = .stopped

end

/-! ### What a step does -/

namespace Serving

variable {ι : Type}

/-- The connection that `handle_data` has. -/
def handled : Serving ι → Option ι
  | .readingRequest i    => some i
  | .dispatching i _     => some i
  | .writingResponse i _ => some i
  | _                    => none

/-- The connection whose tag is being read. -/
def untagged : Serving ι → List ι
  | .readingTag i => [i]
  | _             => []

/-- While a request is handled no connection waits for its tag. -/
theorem untagged_of_handled {serving : Serving ι} {i : ι} (h : serving.handled = some i) :
    serving.untagged = [] := by
  cases serving with
  | readingTag j => cases h
  | _ => rfl

/-- How many moves there are before the thread accepts again. -/
def remaining : Serving ι → Nat
  | .readingTag _        => 4
  | .readingRequest _    => 3
  | .dispatching _ _     => 2
  | .writingResponse _ _ => 1
  | _                    => 0

end Serving

section

variable {ι : Type}

/-- What becomes of the thread and the queue in a step. -/
inductive Moves (s s' : System ι) : Prop
  | rest (hserving : s'.serving = s.serving) (hqueue : s'.queue = s.queue)
  | connect (i : ι) (hidle : s.stage i = .idle) (hstage : s'.stage i ≠ .idle)
    (hserving : s'.serving = s.serving) (hqueue : s'.queue = s.queue ++ [i])
  | accept (i : ι) (hserving : s.serving = .accepting) (hserving' : s'.serving = .readingTag i)
    (hqueue : s.queue = i :: s'.queue) (hconnection : s'.connection = s.connection)
  | arm (i : ι) (hserving : s.serving = .readingTag i) (hserving' : s'.serving = .readingRequest i)
    (hqueue : s'.queue = s.queue) (hread : (s'.connection i).readTimeout.isSome)
    (hwrite : (s'.connection i).writeTimeout.isSome)
  | proceed (i : ι) (hhandled : s.serving.handled = some i)
    (hhandled' : s'.serving.handled = some i)
    (hremaining : s'.serving.remaining < s.serving.remaining) (hqueue : s'.queue = s.queue)
  | release (hremaining : 0 < s.serving.remaining) (hserving' : s'.serving = .accepting)
    (hqueue : s'.queue = s.queue)
  | stop (hserving' : s'.serving = .stopped) (hqueue : s'.queue = s.queue)

/-- What starts a wait for a tag. -/
theorem Moves.tag {s s' : System ι} {i : ι} (h : Moves s s') (hi : s'.serving = .readingTag i) :
    s.serving = .readingTag i ∨ s.serving = .accepting ∧ s'.connection = s.connection := by
  cases h with
  | rest hserving | connect _ _ _ hserving => exact .inl (hserving ▸ hi)
  | accept j hserving _ _ hconnection => exact .inr ⟨hserving, hconnection⟩
  | arm j _ hserving' | release _ hserving' | stop hserving' => rw [hserving'] at hi; cases hi
  | proceed j _ hhandled' => rw [hi] at hhandled'; cases hhandled'

/-- What starts `handle_data`. -/
theorem Moves.handled {s s' : System ι} {i : ι} (h : Moves s s')
    (hi : s'.serving.handled = some i) : s.serving.handled = some i ∨
      s.serving = .readingTag i ∧ (s'.connection i).readTimeout.isSome ∧
        (s'.connection i).writeTimeout.isSome := by
  cases h with
  | rest hserving | connect _ _ _ hserving => exact .inl (hserving ▸ hi)
  | accept _ _ hserving' | release _ hserving' | stop hserving' =>
    rw [hserving'] at hi; cases hi
  | arm j hserving hserving' _ hread hwrite =>
    rw [hserving'] at hi
    cases hi
    exact .inr ⟨hserving, hread, hwrite⟩
  | proceed j hhandled hhandled' =>
    rw [hhandled'] at hi
    cases hi
    exact .inl hhandled

/-! ### Connections without timeouts -/

/-- The connections whose tags have not been read yet. -/
def System.line (s : System ι) : List ι := s.serving.untagged ++ s.queue

/-- Nobody is in the line twice, and no timeouts have been set for those in the line or for
    those who have not connected. -/
structure Fresh (s : System ι) : Prop where
  once      : s.line.Nodup
  connected : ∀ i ∈ s.line, s.stage i ≠ .idle
  timed     : ∀ i, (s.connection i).readTimeout.isSome → s.stage i ≠ .idle ∧ i ∉ s.line

namespace Fresh

/-- At the start no timeout has been set. -/
theorem start (tree : Tree) : Fresh (System.start tree : System ι) where
  once := List.nodup_nil
  connected _ h := absurd h List.not_mem_nil
  timed _ h := by cases h

/-- While the tag of a connection is read, it has no read timeout. -/
theorem untimed {s : System ι} (h : Fresh s) {i : ι} (hserving : s.serving = .readingTag i) :
    (s.connection i).readTimeout = none := by
  by_contra hsome
  refine (h.timed i (Option.isSome_iff_ne_none.mpr hsome)).2 ?_
  unfold System.line
  rw [hserving]
  exact List.mem_cons_self

/-- A wait for the tag of a connection that is not ready has no timeout. -/
theorem not_armed {s : Wired ι} (h : Fresh s.toSystem) {i : ι}
    (hserving : s.serving = .readingTag i) (hready : ¬ s.Ready i) : ¬ s.Armed := by
  intro harmed
  obtain ⟨harrived, hopen⟩ := not_or.mp hready
  have hshort : (s.connection i).arrived.length < 1 := by
    rw [not_not.mp harrived]
    exact Nat.zero_lt_one
  have hsome := harmed.read i ⟨.tag hserving hshort, hopen⟩
  rw [h.untimed hserving] at hsome
  cases hsome

end Fresh

/-! ### Connections with timeouts -/

/-- The connection whose tag is read is ready, and the one that `handle_data` has got has
    both timeouts. -/
structure Bounded (s : Wired ι) : Prop where
  tag   : ∀ i, s.serving = .readingTag i → s.Ready i
  read  : ∀ i, s.serving.handled = some i → (s.connection i).readTimeout.isSome
  write : ∀ i, s.serving.handled = some i → (s.connection i).writeTimeout.isSome

namespace Bounded

/-- A thread that accepts is not held up. -/
theorem of_accepting {s : Wired ι} (h : s.serving = .accepting) : Bounded s where
  tag i hi := by
    rw [h] at hi
    cases hi
  read i hi := by
    rw [h] at hi
    cases hi
  write i hi := by
    rw [h] at hi
    cases hi

/-- What bounds every wait arms it. -/
theorem armed {s : Wired ι} (h : Bounded s) : s.Armed where
  read := by
    rintro i ⟨hlacks, hopen⟩
    cases hlacks with
    | tag hserving hshort =>
      -- a connection that is ready does not keep the thread waiting
      rcases h.tag i hserving with harrived | hended
      · exact absurd (List.length_eq_zero_iff.mp (Nat.lt_one_iff.mp hshort)) harrived
      · exact absurd hended hopen
    | length hserving | payload hserving => exact h.read i (by rw [hserving]; rfl)
  write := by
    rintro i ⟨all, hserving, -⟩
    exact h.write i (by rw [hserving]; rfl)

end Bounded

/-! ### What the steps of the system are -/

variable [DecidableEq ι] {srv : RpcServer} {cipher : RpcCipher} {peer : ι → Peer}

section

variable {s s' : System ι}

namespace Step

/-- Every step moves the thread as `Moves` says. -/
theorem moves (h : Step srv cipher peer s s') : Moves s s' := by
  cases h with
  | connect i hidle =>
    refine .connect i hidle ?_ rfl rfl
    simp [System.setStage]
  | accept i hserving hqueue => exact .accept i hserving rfl hqueue rfl
  | acceptFails => exact .stop rfl rfl
  | tagFails i hserving => exact .release (by rw [hserving]; exact Nat.succ_pos _) rfl rfl
  | tagMonitor i hserving => exact .release (by rw [hserving]; exact Nat.succ_pos _) rfl rfl
  | tagOther i hserving => exact .release (by rw [hserving]; exact Nat.succ_pos _) rfl rfl
  | tagData i hserving =>
    exact .arm i hserving rfl rfl (by simp [System.setConnection]) (by simp [System.setConnection])
  | requestFails i hserving => exact .release (by rw [hserving]; exact Nat.succ_pos _) rfl rfl
  | request i hserving =>
    exact .proceed i (by rw [hserving]; rfl) rfl (by rw [hserving]; exact Nat.lt_succ_self 2) rfl
  | dispatch i os nonce hserving =>
    exact .proceed i (by rw [hserving]; rfl) rfl (by rw [hserving]; exact Nat.lt_succ_self 1) rfl
  | responded i hserving =>
    exact .release (by rw [hserving]; exact Nat.succ_pos _) rfl rfl
  | _ => exact .rest rfl rfl

/-- Nobody connects twice. -/
theorem stage (h : Step srv cipher peer s s') (i : ι) (hi : s.stage i ≠ .idle) :
    s'.stage i ≠ .idle := by
  have hset : ∀ j stage, stage ≠ Stage.idle → (s.setStage j stage).stage i ≠ .idle := by
    intro j stage hstage
    show Function.update s.stage j stage i ≠ .idle
    rcases eq_or_ne i j with rfl | hne
    · rw [Function.update_self]
      exact hstage
    · rw [Function.update_of_ne hne]
      exact hi
  cases h with
  | connect j => exact hset j _ (by simp)
  | written j => exact hset j _ (by simp)
  | receive j => exact hset j _ (by simp)
  | fail j => exact hset j _ (by simp)
  | _ => exact hi

/-- What has arrived stays, and timeouts are set only by `handle_data`. -/
theorem connection (h : Step srv cipher peer s s') (i : ι) :
    (s.connection i).arrived <+: (s'.connection i).arrived ∧
      ((s'.connection i).readTimeout = (s.connection i).readTimeout ∧
        (s'.connection i).writeTimeout = (s.connection i).writeTimeout ∨
      s.serving = .readingTag i ∧ s'.serving = .readingRequest i ∧ s'.queue = s.queue) := by
  -- the other connections are left alone
  have hset : ∀ j (c : Connection), (s.connection j).arrived <+: c.arrived →
      (c.readTimeout = (s.connection j).readTimeout ∧
        c.writeTimeout = (s.connection j).writeTimeout ∨
      s.serving = .readingTag j ∧ s'.serving = .readingRequest j ∧ s'.queue = s.queue) →
      (s.connection i).arrived <+: ((s.setConnection j c).connection i).arrived ∧
        (((s.setConnection j c).connection i).readTimeout = (s.connection i).readTimeout ∧
          ((s.setConnection j c).connection i).writeTimeout = (s.connection i).writeTimeout ∨
        s.serving = .readingTag i ∧ s'.serving = .readingRequest i ∧ s'.queue = s.queue) := by
    intro j c harrived htimeouts
    unfold System.setConnection
    rcases eq_or_ne i j with rfl | hne
    · simp only [Function.update_self]
      exact ⟨harrived, htimeouts⟩
    · simp only [Function.update_of_ne hne]
      exact ⟨List.prefix_rfl, .inl ⟨trivial, trivial⟩⟩
  cases h with
  | write j => exact hset j _ List.prefix_rfl (.inl ⟨rfl, rfl⟩)
  | carry j hmore => exact hset j _ hmore (.inl ⟨rfl, rfl⟩)
  | carryBack j => exact hset j _ List.prefix_rfl (.inl ⟨rfl, rfl⟩)
  | tagData j hserving => exact hset j _ List.prefix_rfl (.inr ⟨hserving, rfl, rfl⟩)
  | respond j => exact hset j _ List.prefix_rfl (.inl ⟨rfl, rfl⟩)
  | _ => exact ⟨List.prefix_rfl, .inl ⟨rfl, rfl⟩⟩

end Step

namespace Fresh

/-- The line gets shorter, or a new connection joins it. -/
theorem line_step (h : Step srv cipher peer s s') :
    s'.line.Sublist s.line ∨
      ∃ i, s.stage i = .idle ∧ s'.stage i ≠ .idle ∧ s'.line = s.line ++ [i] := by
  unfold System.line
  cases h.moves with
  | rest hserving hqueue =>
    rw [hserving, hqueue]
    exact .inl (List.Sublist.refl _)
  | connect i hidle hstage hserving hqueue =>
    rw [hserving, hqueue, ← List.append_assoc]
    exact .inr ⟨i, hidle, hstage, rfl⟩
  | accept i hserving hserving' hqueue =>
    rw [hserving, hserving', hqueue]
    exact .inl (List.Sublist.refl _)
  | arm i hserving hserving' hqueue =>
    rw [hserving', hqueue]
    exact .inl (List.sublist_append_right _ _)
  | proceed i hhandled hhandled' _ hqueue =>
    rw [Serving.untagged_of_handled hhandled', hqueue]
    exact .inl (List.sublist_append_right _ _)
  | release _ hserving' hqueue =>
    rw [hserving', hqueue]
    exact .inl (List.sublist_append_right _ _)
  | stop hserving' hqueue =>
    rw [hserving', hqueue]
    exact .inl (List.sublist_append_right _ _)

/-- New connections stay without timeouts in every step. -/
theorem step (h : Fresh s) (hstep : Step srv cipher peer s s') : Fresh s' := by
  obtain ⟨honce, hmem⟩ : s'.line.Nodup ∧ ∀ i ∈ s'.line, i ∈ s.line ∨
      s.stage i = .idle ∧ s'.stage i ≠ .idle := by
    rcases line_step hstep with hsub | ⟨i, hidle, hstage, hline⟩
    · exact ⟨h.once.sublist hsub, fun i hi => .inl (hsub.subset hi)⟩
    · rw [hline, ← List.concat_eq_append]
      refine ⟨h.once.concat (fun hi => h.connected i hi hidle), fun j hj => ?_⟩
      rw [List.concat_eq_append] at hj
      rcases List.mem_append.mp hj with hj | hj
      · exact .inl hj
      · cases List.mem_singleton.mp hj
        exact .inr ⟨hidle, hstage⟩
  refine ⟨honce, fun i hi => ?_, fun i hsome => ?_⟩
  · rcases hmem i hi with hold | ⟨-, hstage⟩
    · exact hstep.stage i (h.connected i hold)
    · exact hstage
  · rcases (hstep.connection i).2 with ⟨hread, -⟩ | ⟨hserving, hserving', hqueue⟩
    · rw [hread] at hsome
      obtain ⟨hstage, hline⟩ := h.timed i hsome
      exact ⟨hstep.stage i hstage, fun hi => (hmem i hi).elim hline (fun hnew => hstage hnew.1)⟩
    · -- it was at the head of the line, and is in it only once
      have hline : s.line = i :: s.queue := by
        unfold System.line
        rw [hserving]
        rfl
      have hline' : s'.line = s.queue := by
        unfold System.line
        rw [hserving', hqueue]
        rfl
      have hhead := h.once
      rw [hline] at hhead
      refine ⟨hstep.stage i (h.connected i (hline ▸ List.mem_cons_self)), ?_⟩
      rw [hline']
      exact (List.nodup_cons.mp hhead).1

end Fresh

end

section

variable {s s' : Wired ι}

/-- A run keeps what every step of `Step` keeps. -/
theorem WiredStep.fresh (h : WiredStep srv cipher peer s s') (hs : Fresh s.toSystem) :
    Fresh s'.toSystem := by
  cases h with
  | step hstep => exact hs.step hstep
  | hangUp i => exact hs

/-- A connection that is ready stays so. -/
theorem WiredStep.ready (h : WiredStep srv cipher peer s s') {i : ι} (hi : s.Ready i) :
    s'.Ready i := by
  cases h with
  | step hstep =>
    rcases hi with harrived | hended
    · refine .inl (fun hnil => harrived ?_)
      exact List.prefix_nil.mp (hnil ▸ (hstep.connection i).1)
    · exact .inr hended
  | hangUp j => exact hi.imp_right (List.mem_cons_of_mem j)

namespace Bounded

/-- Waits stay bounded, where only connections with something to read are accepted. -/
theorem step (h : Bounded s) (hstep : WiredStep srv cipher peer s s')
    (haccept : ∀ i, s.serving = .accepting → s'.serving = .readingTag i → s.Ready i) :
    Bounded s' := by
  have hready : ∀ i, s'.serving = .readingTag i → s.Ready i → s'.Ready i :=
    fun i _ => hstep.ready
  cases hstep with
  | hangUp j => exact ⟨fun i hi => hready i hi (h.tag i hi), h.read, h.write⟩
  | @step s' hstep =>
    -- a timeout that is set stays set
    have hkeeps : ∀ i, s'.serving.handled = some i →
        (s'.connection i).readTimeout.isSome ∧ (s'.connection i).writeTimeout.isSome := by
      intro i hi
      rcases hstep.moves.handled hi with hhandled | ⟨-, hread, hwrite⟩
      · rcases (hstep.connection i).2 with ⟨hread, hwrite⟩ | ⟨hserving, -⟩
        · rw [hread, hwrite]
          exact ⟨h.read i hhandled, h.write i hhandled⟩
        · rw [hserving] at hhandled
          cases hhandled
      · exact ⟨hread, hwrite⟩
    refine ⟨fun i hi => hready i hi ?_, fun i hi => (hkeeps i hi).1, fun i hi => (hkeeps i hi).2⟩
    rcases hstep.moves.tag hi with hserving | ⟨hserving, -⟩
    · exact h.tag i hserving
    · exact haccept i hserving hi

end Bounded

end

/-! ### Every connection in the queue -/

/-- How far the thread is from a connection in the queue: five moves for each one before. -/
def System.distance (s : System ι) (i : ι) : Nat := 5 * s.queue.idxOf i + s.serving.remaining

/-- Every move of the thread brings it closer to a connection in the queue. -/
theorem Moves.closer {s s' : System ι} (h : Moves s s') {i : ι} (hi : i ∈ s.queue) :
    (s'.serving = .readingTag i ∨ s'.serving = .stopped) ∨
      i ∈ s'.queue ∧ s'.distance i ≤ s.distance i ∧
        (s'.serving ≠ s.serving → s'.distance i < s.distance i) := by
  unfold System.distance
  cases h with
  | rest hserving hqueue =>
    rw [hserving, hqueue]
    exact .inr ⟨hi, Nat.le_refl _, fun hne => absurd rfl hne⟩
  | connect j _ _ hserving hqueue =>
    -- it joins the queue behind the others
    rw [hserving, hqueue, List.idxOf_append_of_mem hi]
    exact .inr ⟨List.mem_append_left _ hi, Nat.le_refl _, fun hne => absurd rfl hne⟩
  | accept j hserving hserving' hqueue =>
    rw [hqueue] at hi
    rcases eq_or_ne j i with rfl | hne
    · exact .inl (.inl hserving')
    · have hlt : 5 * s'.queue.idxOf i + s'.serving.remaining
          < 5 * s.queue.idxOf i + s.serving.remaining := by
        rw [hserving, hserving', hqueue, List.idxOf_cons_ne _ hne]
        show 5 * s'.queue.idxOf i + 4 < 5 * (s'.queue.idxOf i + 1) + 0
        omega
      exact .inr ⟨(List.mem_cons.mp hi).resolve_left hne.symm, Nat.le_of_lt hlt, fun _ => hlt⟩
  | arm j hserving hserving' hqueue =>
    have hlt : s'.serving.remaining < s.serving.remaining := by
      rw [hserving, hserving']
      exact Nat.lt_succ_self 3
    rw [hqueue]
    exact .inr ⟨hi, by omega, fun _ => by omega⟩
  | proceed j _ _ hlt hqueue =>
    rw [hqueue]
    exact .inr ⟨hi, by omega, fun _ => by omega⟩
  | release hbusy hserving' hqueue =>
    have hlt : s'.serving.remaining < s.serving.remaining := by
      rw [hserving']
      exact hbusy
    rw [hqueue]
    exact .inr ⟨hi, by omega, fun _ => by omega⟩
  | stop hserving' => exact .inl (.inr hserving')

/-- A thread that waits for no peer without a timeout comes to everyone. -/
theorem everyoneServed_of_armed {tree : Tree} {run : WiredRun srv cipher peer tree}
    (hfair : Fair run) (harmed : ∀ n, (run.state n).Armed) : EveryoneServed run := by
  intro n i hi
  refine run.eventually (fun s => i ∈ s.queue)
    (fun s => s.serving = .readingTag i ∨ s.serving = .stopped)
    (fun s s' => s'.serving ≠ s.serving) (fun s => s.distance i) (fun s hne => hne rfl) hi ?_ ?_
  · intro k _ hmem hgoal
    refine hfair k (fun m _ => harmed m) ⟨fun hstopped => hgoal (.inr hstopped), fun _ hnil => ?_⟩
    rw [hnil] at hmem
    cases hmem
  · intro k _ hmem _ hnext
    generalize run.state k = s, run.state (k + 1) = s' at hmem hnext ⊢
    cases hnext with
    | step hstep => exact hstep.moves.closer hmem
    | hangUp j => exact .inr ⟨hmem, Nat.le_refl _, fun hne => absurd rfl hne⟩

/-! ### A silent peer -/

section

variable {tree : Tree} (run : WiredRun srv cipher peer tree)

/-- New connections are without timeouts in the whole run. -/
theorem fresh_state (n : Nat) : Fresh (run.state n).toSystem :=
  run.always (P := fun s => Fresh s.toSystem) (.start tree) (fun _ h hnext => hnext.fresh h) n

/-- Whoever connects and keeps silent has the thread for good. -/
theorem held_of_silent {n : Nat} {i : ι} (hserving : (run.state n).serving = .readingTag i)
    (hsilent : ∀ m ≥ n, ¬ (run.state m).Ready i) :
    ∀ m ≥ n, (run.state m).serving = .readingTag i := by
  refine run.always_from (P := fun s => s.serving = .readingTag i) hserving ?_
  intro m hm hserving hnext
  have hnot := (fresh_state run m).not_armed hserving (hsilent m hm)
  generalize run.state m = s, run.state (m + 1) = s' at hserving hnot hnext ⊢
  cases hnext with
  | step _ hheld => exact (hheld hnot).trans hserving
  | hangUp j => exact hserving

/-- **When the thread never waits without a timeout.**  Wherever it is blocked a timeout has
    been set, and it comes to every connection in the queue, exactly if `accept` returns only
    connections whose first byte has arrived, or whose end. -/
theorem armed_iff_ready (run : WiredRun srv cipher peer tree) :
    ((∀ n, (run.state n).Armed) ∧ (Fair run → EveryoneServed run)) ↔
      ∀ n i, (run.state n).serving = .accepting → (run.state (n + 1)).serving = .readingTag i →
        (run.state n).Ready i := by
  constructor
  · rintro ⟨harmed, -⟩ n i hserving hserving'
    by_contra hready
    -- then the wait that begins has no timeout
    refine (fresh_state run (n + 1)).not_armed hserving' ?_ (harmed (n + 1))
    have hnext : WiredStep srv cipher peer (run.state n) (run.state (n + 1)) := by
      refine (run.next n).resolve_left (fun hpause => ?_)
      rw [hpause, hserving] at hserving'
      cases hserving'
    generalize run.state n = s, run.state (n + 1) = s' at hserving hserving' hready hnext ⊢
    cases hnext with
    | step hstep =>
      rcases hstep.moves.tag hserving' with htag | ⟨-, hconnection⟩
      · rw [hserving] at htag
        cases htag
      · unfold Wired.Ready at hready ⊢
        rw [hconnection]
        exact hready
    | hangUp j =>
      rw [show s.serving = _ from hserving'] at hserving
      cases hserving
  · intro haccept
    have hbounded : ∀ n, Bounded (run.state n) :=
      run.always (.of_accepting rfl) (fun n h hnext => h.step hnext (haccept n))
    have harmed := fun n => (hbounded n).armed
    exact ⟨harmed, fun hfair => everyoneServed_of_armed hfair harmed⟩

end

/-- A peer that connects and sends nothing, and a call of `send`. -/
def mute (speaks : Bool) : Peer := if speaks then retried true else .other []

/-- The silent peer connects, the other one connects, and the first of the two connections
    is accepted. -/
def stuckAt : Nat → Wired Bool
  | 0 => .start treeWithFile
  | 1 => ⟨{ (System.start treeWithFile).setStage false .writing with
      queue := [false], history := [.connected false] }, []⟩
  | 2 => ⟨{ ((System.start treeWithFile).setStage false .writing).setStage true .writing with
      queue := [false, true], history := [.connected false, .connected true] }, []⟩
  | _ => ⟨{ ((System.start treeWithFile).setStage false .writing).setStage true .writing with
      serving := .readingTag false, queue := [true]
      history := [.connected false, .connected true] }, []⟩

/-- Then nothing happens any more. -/
def stuck : WiredRun RpcServer.serverAtR statCipher mute treeWithFile where
  state := stuckAt
  initial := rfl
  next
    | 0     => .inr (.step (.connect false rfl) fun _ => rfl)
    | 1     => .inr (.step (.connect true rfl) fun _ => rfl)
    | 2     => .inr (.step (.accept false rfl rfl) fun hwait =>
        absurd (Bounded.of_accepting rfl).armed hwait)
    | _ + 3 => .inl rfl

/-- The thread reads the tag of the silent peer without a timeout, for good, and the other
    connection stays in the queue. -/
theorem silent_peer_holds_thread :
    Fair stuck ∧ (∀ n ≥ 3, (stuck.state n).Reading false ∧
      ((stuck.state n).connection false).readTimeout = none) ∧ ¬ EveryoneServed stuck := by
  have hstate : ∀ n ≥ 3, stuck.state n = stuckAt 3 := by
    intro n hn
    obtain ⟨k, rfl⟩ := Nat.exists_eq_add_of_le' hn
    rfl
  have hreading : (stuckAt 3).Reading false :=
    ⟨.tag rfl Nat.zero_lt_one, List.not_mem_nil⟩
  refine ⟨fun n harmed => ?_, fun n hn => ?_, fun hserved => ?_⟩
  · -- the wait has no timeout, so that nothing is promised
    have hsome := (harmed (n + 3) (Nat.le_add_right n 3)).read false
    rw [hstate (n + 3) (Nat.le_add_left 3 n)] at hsome
    cases hsome hreading
  · rw [hstate n hn]
    exact ⟨hreading, rfl⟩
  · obtain ⟨m, hm, hserving⟩ := hserved 3 true List.mem_cons_self
    rw [hstate m hm] at hserving
    rcases hserving with h | h <;> cases h

end

end Netfilum
