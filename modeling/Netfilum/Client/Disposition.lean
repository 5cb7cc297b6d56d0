import Netfilum.Client.Disconnect

namespace Netfilum

open Program Rust

/-!
# Delete dispositions

Whether a file is deleted when it is closed is a property of the file: the last
`set_delete` made on it decides, through whichever handle it came.  The client keeps the
flag with the handle.

* `run` — any sequence of `set_delete` and `cleanup` calls on the handles of one file, over
  any transport, with what each call returned and sent.
* `disposition` — what the calls made so far say about the file; `ownDisposition` — what
  those through one handle say.
* `tracks_make` — the flag of a handle is its own disposition, along every run.
* `honoured_iff` — every deletion is one the file's disposition asks for exactly when the
  two dispositions agree wherever a handle with a pending deletion is cleaned up.
-/

/-- A call on a handle of the file. -/
inductive Call where
  | setDelete (handle : Nat) (deleteFile : Bool)
  | cleanup (handle : Nat) (flags : UInt32)
  deriving DecidableEq

/-- A call that was made: whether it returned `Ok`, and the requests it sent. -/
structure Made where
  call : Call
  ok   : Bool
  sent : List Request

variable {σ Buf : Type}

/-- Start a log. -/
def World.logging (w : World σ Buf) : World (σ × Log) Buf :=
  { net := (w.net, []), mountState := w.mountState, contexts := w.contexts }

/-- Drop the log. -/
def World.unlogged (w : World (σ × Log) Buf) : World σ Buf :=
  { net := w.net.1, mountState := w.mountState, contexts := w.contexts }

/-- Whether a result is `Ok`. -/
def isOk {α : Type} : EStateM.Result Stop (World σ Buf) α → Bool
  | .ok _ _    => true
  | .error _ _ => false

namespace RpcFsContext

variable (fs : RpcFsContext σ Buf)

/-- The callback of a call. -/
def callback : Call → ClientM σ Buf Unit
  | .setDelete handle delete => fs.setDelete handle delete
  | .cleanup handle flags    => fs.cleanup handle flags

/-- Make one call. -/
def make (w : World σ Buf) (call : Call) : Made × World σ Buf :=
  let result := fs.recorded.callback call w.logging
  (⟨call, isOk result, (final result).net.2.map Prod.fst⟩, (final result).unlogged)

/-- Make calls one after another. -/
def makeAll (w : World σ Buf) : List Call → List Made
  | []            => []
  | call :: calls => (fs.make w call).1 :: makeAll (fs.make w call).2 calls

/-- The handles of a file after they were opened: none has a deletion pending. -/
def opened (net : σ) (path : Nat → String) (kind : Nat → EntryKind) : World σ Buf where
  net := net
  mountState := {}
  contexts handle := fs.newContext (path handle) (kind handle)

end RpcFsContext

/-! ### What the calls so far say -/

/-- The disposition that a call sets, if it succeeded. -/
def Made.sets (m : Made) : Option Bool :=
  match m.call with
  | .setDelete _ delete => if m.ok then some delete else none
  | .cleanup _ _        => none

/-- The handle of a call. -/
def Made.handle (m : Made) : Nat :=
  match m.call with
  | .setDelete handle _ => handle
  | .cleanup handle _   => handle

/-- The file's disposition: the last one set through any handle. -/
def disposition (past : List Made) : Option Bool := (past.filterMap Made.sets).getLast?

/-- The last disposition set through one handle. -/
def ownDisposition (handle : Nat) (past : List Made) : Option Bool :=
  disposition (past.filter (·.handle = handle))

/-- A cleanup without the delete flag. -/
def Made.PlainCleanup (m : Made) (handle : Nat) : Prop :=
  ∃ flags, m.call = .cleanup handle flags ∧ RpcFsContext.cleanupDelete flags = false

/-- Whether a request removes an entry. -/
def Request.removes : Request → Bool
  | .removeFile _ | .removeDir _ => true
  | _                            => false

/-- Every deletion by a plain cleanup is asked for by the file's disposition. -/
def Honoured (history : List Made) : Prop :=
  ∀ past m future handle, history = past ++ m :: future → m.PlainCleanup handle →
    (∃ r ∈ m.sent, r.removes = true) → disposition past = some true

/-- At every plain cleanup through a handle whose own last disposition is to delete, the
    file's disposition is to delete as well. -/
def Agreeing (history : List Made) : Prop :=
  ∀ past m future handle, history = past ++ m :: future → m.PlainCleanup handle →
    ownDisposition handle past = some true → disposition past = some true

/-- One more call decides on the deletion, or leaves what was decided. -/
theorem disposition_append (past : List Made) (m : Made) :
    disposition (past ++ [m]) = m.sets.or (disposition past) := by
  unfold disposition
  rw [List.filterMap_append]
  cases hs : m.sets with
  | none => simp [hs]
  | some delete => simp [hs]

/-- One more call on a handle decides for it, or leaves what was decided. -/
theorem ownDisposition_append_self (past : List Made) (m : Made) :
    ownDisposition m.handle (past ++ [m]) = m.sets.or (ownDisposition m.handle past) := by
  unfold ownDisposition
  rw [List.filter_append, List.filter_cons_of_pos (by simp), List.filter_nil, disposition_append]

/-- A call on another handle does not decide for this one. -/
theorem ownDisposition_append_of_ne {handle : Nat} {m : Made} (h : m.handle ≠ handle)
    (past : List Made) : ownDisposition handle (past ++ [m]) = ownDisposition handle past := by
  unfold ownDisposition
  rw [List.filter_append, List.filter_cons_of_neg (by simpa using h), List.filter_nil,
    List.append_nil]

/-! ### What one call does -/

namespace RpcFsContext

variable (fs : RpcFsContext σ Buf)

/-- `set_delete` stores the flag in its handle if it succeeds, and changes nothing if it
    fails. -/
theorem setDelete_contexts (handle : Nat) (delete : Bool) (w : World σ Buf) :
    (final (fs.setDelete handle delete w)).contexts
      = if isOk (fs.setDelete handle delete w)
        then (w.setContext handle { w.contexts handle with deletePending := delete }).contexts
        else w.contexts := by
  cases delete with
  | false => rfl
  | true =>
    have hsend := fs.sendDirect_contexts
      (.canDelete (w.contexts handle).path (w.contexts handle).kind) w
    rw [setDelete_apply, bind_apply]
    cases hs : fs.sendDirect (.canDelete (w.contexts handle).path (w.contexts handle).kind) w with
    | ok v w1 =>
      rw [hs, final_ok] at hsend
      show (w1.setContext handle { w1.contexts handle with deletePending := true }).contexts = _
      unfold World.setContext
      rw [hsend]
      rfl
    | error e w1 =>
      rw [hs, final_error] at hsend
      exact hsend

/-- `cleanup` changes no context. -/
theorem cleanup_contexts (handle : Nat) (flags : UInt32) (w : World σ Buf) :
    (final (fs.cleanup handle flags w)).contexts = w.contexts := by
  unfold cleanup
  split
  · exact fs.sendDirect_contexts _ w
  · rfl

/-- A plain cleanup removes the entry exactly when the handle has a deletion pending. -/
theorem make_cleanup_removes (handle : Nat) (flags : UInt32) (w : World σ Buf)
    (hflags : cleanupDelete flags = false) :
    (∃ r ∈ (fs.make w (.cleanup handle flags)).1.sent, r.removes = true) ↔
      (w.contexts handle).deletePending = true := by
  have hshould : shouldDelete (w.contexts handle) flags = (w.contexts handle).deletePending := by
    unfold shouldDelete
    rw [hflags]
    simp
  have hrun : fs.recorded.callback (.cleanup handle flags) w.logging
      = if (w.contexts handle).deletePending = true then
          .ok () (final (fs.recorded.sendDirect (removeRequest (w.contexts handle)) w.logging))
        else .ok () w.logging := by
    rw [← hshould]; rfl
  unfold make
  dsimp only
  rw [hrun]
  by_cases hp : (w.contexts handle).deletePending = true
  · rw [if_pos hp, final_ok, fs.final_sendDirect]
    refine iff_of_true ⟨removeRequest (w.contexts handle), ?_, ?_⟩ hp
    · exact List.mem_map.mpr ⟨_, List.mem_singleton_self _, rfl⟩
    · unfold removeRequest
      cases (w.contexts handle).kind <;> rfl
  · rw [if_neg hp]
    refine iff_of_false ?_ hp
    rintro ⟨r, hr, -⟩
    cases hr

/-! ### Along a run -/

/-- The flag of every handle is its own disposition. -/
def Tracks (w : World σ Buf) (past : List Made) : Prop :=
  ∀ handle, (w.contexts handle).deletePending = true ↔ ownDisposition handle past = some true

/-- When the handles are open nothing has been decided. -/
theorem tracks_opened (net : σ) (path : Nat → String) (kind : Nat → EntryKind) :
    Tracks (fs.opened net path kind) [] := fun _ =>
  iff_of_false Bool.false_ne_true (by unfold ownDisposition disposition; simp)

/-- One call keeps the flags what they are. -/
theorem tracks_make {w : World σ Buf} {past : List Made} (h : Tracks w past) (call : Call) :
    Tracks (fs.make w call).2 (past ++ [(fs.make w call).1]) := by
  intro handle
  cases call with
  | cleanup handle' flags =>
    -- a clean-up changes no flag
    have hctx : (fs.make w (.cleanup handle' flags)).2.contexts = w.contexts :=
      fs.recorded.cleanup_contexts handle' flags w.logging
    rw [hctx, h handle]
    by_cases hh : handle' = handle
    · have happend := ownDisposition_append_self past (fs.make w (.cleanup handle' flags)).1
      rw [show (fs.make w (.cleanup handle' flags)).1.handle = handle from hh] at happend
      rw [happend]
      rfl
    · rw [ownDisposition_append_of_ne (m := (fs.make w (.cleanup handle' flags)).1) hh]
  | setDelete handle' delete =>
    have hctx := fs.recorded.setDelete_contexts handle' delete w.logging
    have hpost : (fs.make w (.setDelete handle' delete)).2.contexts
        = (final (fs.recorded.setDelete handle' delete w.logging)).contexts := rfl
    rw [hpost, hctx]
    by_cases hh : handle' = handle
    · have happend := ownDisposition_append_self past (fs.make w (.setDelete handle' delete)).1
      rw [show (fs.make w (.setDelete handle' delete)).1.handle = handle from hh] at happend
      rw [happend]
      have hsets : (fs.make w (.setDelete handle' delete)).1.sets
          = if isOk (fs.recorded.setDelete handle' delete w.logging) = true
            then some delete else none := rfl
      rw [hsets]
      -- a refused disposition changes neither the flag nor what was asked for
      by_cases hok : isOk (fs.recorded.setDelete handle' delete w.logging) = true
      · rw [if_pos hok, if_pos hok, hh, World.contexts_setContext_self]
        simp
      · rw [if_neg hok, if_neg hok]
        exact h handle
    · rw [ownDisposition_append_of_ne (m := (fs.make w (.setDelete handle' delete)).1) hh,
        ← h handle]
      split
      · rw [World.contexts_setContext_of_ne (Ne.symm hh)]
        rfl
      · rfl

/-- Every call of a run is made in a state that tracks the calls before it. -/
theorem makeAll_split {w : World σ Buf} {before : List Made} (h : Tracks w before)
    (calls : List Call) {past future : List Made} {m : Made}
    (hsplit : fs.makeAll w calls = past ++ m :: future) :
    ∃ w', Tracks w' (before ++ past) ∧ m = (fs.make w' m.call).1 := by
  induction calls generalizing w before past with
  | nil => simp [makeAll] at hsplit
  | cons call calls ih =>
    rw [makeAll] at hsplit
    cases past with
    | nil =>
      rw [List.nil_append] at hsplit
      injection hsplit with hm _
      have hcall : m.call = call := by rw [← hm]; rfl
      exact ⟨w, by rwa [List.append_nil], by rw [hcall, hm]⟩
    | cons m' past =>
      injection hsplit with hm' hrest
      obtain ⟨w', htracks, hm⟩ := ih (fs.tracks_make h call) hrest
      rw [hm', List.append_assoc, List.singleton_append] at htracks
      exact ⟨w', htracks, hm⟩

/-- **Delete dispositions.**  In every run, the cleanups delete only what the file's
    disposition asks for exactly when, wherever a handle with a pending deletion is cleaned
    up, the file's disposition is still to delete. -/
theorem honoured_iff (net : σ) (path : Nat → String) (kind : Nat → EntryKind)
    (calls : List Call) :
    Honoured (fs.makeAll (fs.opened net path kind) calls) ↔
      Agreeing (fs.makeAll (fs.opened net path kind) calls) := by
  have hremoves : ∀ past m future handle,
      fs.makeAll (fs.opened net path kind) calls = past ++ m :: future → m.PlainCleanup handle →
      ((∃ r ∈ m.sent, r.removes = true) ↔ ownDisposition handle past = some true) := by
    intro past m future handle hsplit hplain
    obtain ⟨flags, hcall, hflags⟩ := hplain
    obtain ⟨w, htracks, hm⟩ := fs.makeAll_split (fs.tracks_opened net path kind) calls hsplit
    rw [List.nil_append] at htracks
    rw [hm, hcall, fs.make_cleanup_removes handle flags w hflags]
    exact htracks handle
  constructor
  · intro h past m future handle hsplit hplain hown
    exact h past m future handle hsplit hplain
      ((hremoves past m future handle hsplit hplain).mpr hown)
  · intro h past m future handle hsplit hplain hsent
    exact h past m future handle hsplit hplain
      ((hremoves past m future handle hsplit hplain).mp hsent)

end RpcFsContext

/-- A transport on which every request succeeds with an empty answer. -/
def agreeable : RpcFsContext Unit Unit :=
  { refused with exchange := fun _ s => .ok (.ok .empty) s }

/-- Two handles on one file: the deletion asked for through the first is cancelled through
    the second, and carried out when the first is cleaned up. -/
theorem cancelled_deletion_carried_out :
    ¬ Honoured (agreeable.makeAll (agreeable.opened () (fun _ => "a.txt") (fun _ => .file))
      [.setDelete 0 true, .setDelete 1 false, .cleanup 0 0]) := by
  intro h
  have := h [⟨.setDelete 0 true, true, [.canDelete "a.txt" .file]⟩, ⟨.setDelete 1 false, true, []⟩]
    ⟨.cleanup 0 0, true, [.removeFile "a.txt"]⟩ [] 0 rfl ⟨0, rfl, by decide⟩
    ⟨.removeFile "a.txt", by simp, rfl⟩
  exact absurd this (by decide)

end Netfilum
