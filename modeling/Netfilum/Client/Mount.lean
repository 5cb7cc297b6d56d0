import Mathlib.Data.List.Induction
import Mathlib.Logic.Function.Basic
import Mathlib.Logic.Relation
import Netfilum.Client.Callbacks
import Netfilum.Lib.History

namespace Netfilum

open History Rust
open scoped List

/-!
# The threads of a mount

`run_mount` of `crates/netfilum-client/src/mount.rs`, from the start of its host on: the main
thread, the thread of the connection monitor, the threads on which WinFsp makes its callbacks,
and the handler of Ctrl+C.  They share a `MountState`: a flag, and a message behind a lock.

* `Thread`, `Main`, `Mount` — how far each of them has got, with the history.
* `MountStep` — one step of one of them; a report takes three, one for the lock and the
  message, one for the flag, one for the release of the lock.
* `Mount.Inv`, `Mount.Inv.of_mounted` — the invariant of all runs.
* `sound_of_mounted` — what made the mount end, and what it tells the user.
-/

/-- `ShutdownReason`. -/
inductive ShutdownReason where
  | interrupted
  | serverDisconnected (message : String)
  deriving DecidableEq

/-- The value of `wait_for_shutdown`. -/
def ShutdownReason.of (state : MountState) : ShutdownReason :=
  match state.disconnectMessage with
  | some message => .serverDisconnected message
  | none         => .interrupted

/-- The message of the monitor's thread, from the value of `wait_for_disconnect`. -/
def monitorMessage (addr : String) : Except IoError Unit → String
  | .ok ()       => "lost connection to server at " ++ addr
  | .error error => "monitor connection failed at " ++ addr ++ ": " ++ error.message

/-- The message of `map_rpc_error`. -/
def lossMessage (error : IoError) : String := "lost connection to server: " ++ error.message

/-- The first half of `report_disconnect`: the first message stays. -/
def MountState.keep (state : MountState) (message : String) : MountState :=
  { state with disconnectMessage := state.disconnectMessage <|> some message }

/-- The second half. -/
def MountState.halt (state : MountState) : MountState := { state with stop := true }

/-- A report keeps its message and sets the flag. -/
theorem MountState.halt_keep (state : MountState) (message : String) :
    (state.keep message).halt = state.reportDisconnect message := by
  unfold keep halt reportDisconnect
  cases state.disconnectMessage <;> rfl

/-- Two states with the same fields are the same. -/
theorem MountState.eq_of_fields {state state' : MountState} (hstop : state.stop = state'.stop)
    (hmessage : state.disconnectMessage = state'.disconnectMessage) : state = state' := by
  cases state
  cases state'
  cases hstop
  cases hmessage
  rfl

/-- How far a thread has got that may come to report a loss. -/
inductive Thread where
  /-- No callback is under way, or the monitor's thread has ended. -/
  | idle
  /-- In `send`, or in `wait_for_disconnect`. -/
  | waiting
  /-- `wait_for_disconnect` has returned; the flag is to be looked at. -/
  | noticed (message : String)
  /-- `report_disconnect` is called and wants the lock. -/
  | called (message : String)
  /-- It has the lock, and the message is in its place. -/
  | locked
  /-- It has set the flag. -/
  | stored
  deriving DecidableEq

/-- The thread has the lock. -/
def Thread.Holds : Thread → Prop
  | .locked | .stored => True
  | _                 => False

/-- A thread has the lock between taking it and giving it back. -/
@[simp] theorem Thread.holds_iff {thread : Thread} :
    thread.Holds ↔ thread = .locked ∨ thread = .stored := by
  cases thread <;> simp [Holds]

/-- How far `run_mount` has got. -/
inductive Main where
  | mounting
  /-- In the loop of `wait_for_shutdown`. -/
  | polling
  /-- Behind the loop; the message is to be read. -/
  | leaving
  | unmounting (reason : ShutdownReason)
  /-- In `host.stop()`, which waits for the callbacks. -/
  | stopping (reason : ShutdownReason)
  /-- In `watcher.join()`. -/
  | joining (reason : ShutdownReason)
  | returned (reason : ShutdownReason)
  | failed
  deriving DecidableEq

/-- Why the mount ends, once this has been decided. -/
def Main.reason : Main → Option ShutdownReason
  | .unmounting reason | .stopping reason | .joining reason | .returned reason => some reason
  | _ => none

/-- WinFsp makes no more callbacks. -/
def Main.closed : Main → Bool
  | .stopping _ | .joining _ | .returned _ => true
  | _                                      => false

/-- The connection of the monitor has been shut down. -/
def Main.cut : Main → Bool
  | .joining _ | .returned _ => true
  | _                        => false

/-- What the history records.  A thread is one of the monitor, `none`, or of WinFsp. -/
inductive MountEvent (ι : Type) where
  /-- Ctrl+C. -/
  | interrupted
  /-- A request of a callback has failed. -/
  | lost (i : ι) (error : IoError)
  /-- `wait_for_disconnect` has returned. -/
  | ended (result : Except IoError Unit)
  /-- A report has taken the lock. -/
  | recorded (who : Option ι) (message : String)
  | decided (reason : ShutdownReason)
  /-- `watcher.stop()`. -/
  | shutDown

/-- The shared state, who has the lock, and how far everybody has got. -/
structure Mount (ι : Type) where
  shared  : MountState
  lock    : Option (Option ι)
  thread  : Option ι → Thread
  main    : Main
  history : List (MountEvent ι)

variable {ι : Type}

namespace Mount

/-- The host has just started. -/
def start : Mount ι where
  shared := {}
  lock := none
  thread
    | none   => .waiting
    | some _ => .idle
  main := .mounting
  history := []

/-- The threads, when one of them has got to another place. -/
def advance [DecidableEq ι] (s : Mount ι) (who : Option ι) (thread : Thread) :
    Option ι → Thread :=
  Function.update s.thread who thread

end Mount

/-- One step of one of the threads, or of the handler. -/
inductive MountStep [DecidableEq ι] (addr : String) : Mount ι → Mount ι → Prop
  /-- `host.mount` and `set_handler` have succeeded. -/
  | ready {s} (hmain : s.main = .mounting) : MountStep addr s { s with main := .polling }
  /-- One of them has failed. -/
  | fails {s} (hmain : s.main = .mounting) : MountStep addr s { s with main := .failed }
  /-- Ctrl+C: the handler sets the flag. -/
  | interrupt {s} (hmain : s.main ≠ .mounting) (hfailed : s.main ≠ .failed) :
    MountStep addr s { s with
      shared := s.shared.halt, history := s.history ++ [.interrupted] }
  /-- The loop of `wait_for_shutdown` sees the flag. -/
  | wake {s} (hmain : s.main = .polling) (hstop : s.shared.stop = true) :
    MountStep addr s { s with main := .leaving }
  /-- The message is read, with the lock. -/
  | decide {s} (hmain : s.main = .leaving) (hlock : s.lock = none) :
    MountStep addr s { s with
      main := .unmounting (.of s.shared), history := s.history ++ [.decided (.of s.shared)] }
  /-- `host.unmount()`. -/
  | unmount {s reason} (hmain : s.main = .unmounting reason) :
    MountStep addr s { s with main := .stopping reason }
  /-- `host.stop()` returns, and `watcher.stop()`. -/
  | stop {s reason} (hmain : s.main = .stopping reason)
    (hidle : ∀ i, s.thread (some i) = .idle) :
    MountStep addr s { s with main := .joining reason, history := s.history ++ [.shutDown] }
  /-- `watcher.join()` returns. -/
  | join {s reason} (hmain : s.main = .joining reason) (hidle : s.thread none = .idle) :
    MountStep addr s { s with main := .returned reason }
  /-- WinFsp makes a callback. -/
  | begins {s} (i : ι) (hmain : s.main.closed = false) (hidle : s.thread (some i) = .idle) :
    MountStep addr s { s with thread := s.advance (some i) .waiting }
  /-- The callback ends and has nothing to report, or was not made to. -/
  | answered {s} (i : ι) (hwaiting : s.thread (some i) = .waiting) :
    MountStep addr s { s with thread := s.advance (some i) .idle }
  /-- A request fails and `map_rpc_error` takes the error for a loss. -/
  | lost {s} (i : ι) (e : IoError) (hwaiting : s.thread (some i) = .waiting)
    (hlost : isDisconnectError e = true) :
    MountStep addr s { s with
      thread := s.advance (some i) (.called (lossMessage e)), history := s.history ++ [.lost i e] }
  /-- The connection of the monitor ends or fails. -/
  | ends {s} (result : Except IoError Unit) (hwaiting : s.thread none = .waiting) :
    MountStep addr s { s with
      thread := s.advance none (.noticed (monitorMessage addr result))
      history := s.history ++ [.ended result] }
  /-- The flag is set already: nothing is reported. -/
  | ignores {s message} (hnoticed : s.thread none = .noticed message)
    (hstop : s.shared.stop = true) : MountStep addr s { s with thread := s.advance none .idle }
  | reports {s message} (hnoticed : s.thread none = .noticed message)
    (hstop : s.shared.stop = false) :
    MountStep addr s { s with thread := s.advance none (.called message) }
  /-- `report_disconnect` takes the lock and keeps the message. -/
  | takes {s message} (who : Option ι) (hcalled : s.thread who = .called message)
    (hlock : s.lock = none) :
    MountStep addr s { s with
      shared := s.shared.keep message, lock := some who, thread := s.advance who .locked
      history := s.history ++ [.recorded who message] }
  /-- It sets the flag. -/
  | stores {s} (who : Option ι) (hlocked : s.thread who = .locked) :
    MountStep addr s { s with shared := s.shared.halt, thread := s.advance who .stored }
  /-- It gives the lock back and returns. -/
  | releases {s} (who : Option ι) (hstored : s.thread who = .stored) :
    MountStep addr s { s with lock := none, thread := s.advance who .idle }

/-- The states that the runs of a mount reach. -/
abbrev Mounted [DecidableEq ι] (addr : String) : Mount ι → Prop :=
  Relation.ReflTransGen (MountStep addr) .start

/-! ### Threads -/

section

variable [DecidableEq ι] {addr : String} {s s' : Mount ι} {who other : Option ι}
  {thread thread' : Thread}

/-- The thread that goes on is at its new place. -/
theorem Mount.advance_self (s : Mount ι) (who : Option ι) (thread : Thread) :
    s.advance who thread who = thread :=
  Function.update_self _ _ _

/-- The other threads stay where they are. -/
theorem Mount.advance_of_ne (h : other ≠ who) (s : Mount ι) (thread : Thread) :
    s.advance who thread other = s.thread other :=
  Function.update_of_ne h _ _

omit [DecidableEq ι] in
/-- A thread that is at such a place does not have the lock. -/
theorem not_holds (h : s.thread who = thread) (hthread : ¬ thread.Holds) :
    ¬ (s.thread who).Holds :=
  h ▸ hthread

/-- A thread that does not have the lock goes on without it. -/
theorem Mount.holds_advance (hbefore : ¬ (s.thread who).Holds) (hafter : ¬ thread.Holds) :
    (s.advance who thread other).Holds ↔ (s.thread other).Holds := by
  by_cases hother : other = who
  · rw [hother, s.advance_self]
    exact iff_of_false hafter hbefore
  · rw [Mount.advance_of_ne hother]

/-! ### The lock -/

/-- The thread that is between taking the lock and giving it back has it. -/
def Exclusive (s : Mount ι) : Prop := ∀ who, (s.thread who).Holds ↔ s.lock = some who

/-- A thread goes on without the lock. -/
theorem Exclusive.advance (h : Exclusive s) (hthread : s.thread who = thread)
    (hbefore : ¬ thread.Holds) (hafter : ¬ thread'.Holds) (history : List (MountEvent ι)) :
    Exclusive { s with thread := s.advance who thread', history } := fun other =>
  (Mount.holds_advance (not_holds hthread hbefore) hafter).trans (h other)

/-- No two threads have the lock. -/
theorem Exclusive.step (h : Exclusive s) (hstep : MountStep addr s s') : Exclusive s' := by
  cases hstep with
  | ready hmain => exact h
  | fails hmain => exact h
  | interrupt hmain hfailed => exact h
  | wake hmain hstop => exact h
  | decide hmain hlock => exact h
  | unmount hmain => exact h
  | stop hmain hidle => exact h
  | join hmain hidle => exact h
  | begins i hmain hidle => exact h.advance hidle (by simp) (by simp) _
  | answered i hwaiting => exact h.advance hwaiting (by simp) (by simp) _
  | lost i e hwaiting hlost => exact h.advance hwaiting (by simp) (by simp) _
  | ends result hwaiting => exact h.advance hwaiting (by simp) (by simp) _
  | ignores hnoticed hstop => exact h.advance hnoticed (by simp) (by simp) _
  | reports hnoticed hstop => exact h.advance hnoticed (by simp) (by simp) _
  | takes who hcalled hlock =>
    -- the lock was free, so that nobody else has it
    intro other
    show (s.advance who .locked other).Holds ↔ some who = some other
    by_cases hother : other = who
    · rw [hother, s.advance_self]
      exact iff_of_true trivial rfl
    · rw [Mount.advance_of_ne hother, h other, hlock]
      exact iff_of_false (by simp) fun heq => hother (Option.some.inj heq).symm
  | stores who hlocked =>
    intro other
    show (s.advance who .stored other).Holds ↔ s.lock = some other
    by_cases hother : other = who
    · rw [hother, s.advance_self, ← h who, hlocked]
      exact iff_of_true trivial trivial
    · rw [Mount.advance_of_ne hother]
      exact h other
  | releases who hstored =>
    have hhas := (h who).mp (hstored ▸ trivial)
    intro other
    show (s.advance who .idle other).Holds ↔ none = some other
    by_cases hother : other = who
    · rw [hother, s.advance_self]
      exact iff_of_false (by simp) (by simp)
    · rw [Mount.advance_of_ne hother, h other, hhas]
      exact iff_of_false (fun heq => hother (Option.some.inj heq).symm) (by simp)

end

/-! ### The shared state -/

/-- What an event does to the mount state, where every report is a single step. -/
def MountEvent.apply (state : MountState) : MountEvent ι → MountState
  | .interrupted        => state.halt
  | .recorded _ message => state.reportDisconnect message
  | _                   => state

/-- The mount state after a history. -/
def replay (history : List (MountEvent ι)) : MountState := history.foldl MountEvent.apply {}

/-- One more event is applied to the state so far. -/
theorem replay_concat (history : List (MountEvent ι)) (event : MountEvent ι) :
    replay (history ++ [event]) = event.apply (replay history) := by
  unfold replay
  rw [List.foldl_concat]

/-- The shared state is the one of single steps, but for the flag of a report that has not come
    to set it. -/
structure Shared (s : Mount ι) : Prop where
  message : s.shared.disconnectMessage = (replay s.history).disconnectMessage
  flag    : (replay s.history).stop = true → s.shared.stop = true ∨ ∃ who, s.thread who = .locked
  halted  : s.shared.stop = true → (replay s.history).stop = true
  holder  : ∀ who, (s.thread who).Holds → (replay s.history).stop = true

/-- At the start the shared state is the one of single steps. -/
theorem Shared.start : Shared (.start : Mount ι) where
  message := rfl
  flag := by simp [replay, Mount.start]
  halted := by simp [Mount.start]
  holder who hholds := by cases who <;> simp [Mount.start, Thread.Holds] at hholds

section

variable [DecidableEq ι] {addr : String} {s s' : Mount ι} {who other : Option ι}
  {thread thread' : Thread}

/-- A step that does not touch the shared state, of a thread without the lock. -/
theorem Shared.advance (h : Shared s) (hthread : s.thread who = thread)
    (hbefore : ¬ thread.Holds) (hafter : ¬ thread'.Holds) {history : List (MountEvent ι)}
    (hreplay : replay history = replay s.history) :
    Shared { s with thread := s.advance who thread', history } where
  message := h.message.trans (congrArg _ hreplay.symm)
  flag hstop := by
    refine (h.flag (hreplay ▸ hstop)).imp_right fun ⟨other, hlocked⟩ => ⟨other, ?_⟩
    have hother : other ≠ who := by
      rintro rfl
      rw [← hthread, hlocked] at hbefore
      exact hbefore trivial
    exact (Mount.advance_of_ne hother _ _).trans hlocked
  halted hstop := (congrArg _ hreplay).trans (h.halted hstop)
  holder other hholds := by
    refine (congrArg _ hreplay).trans (h.holder other ?_)
    exact (Mount.holds_advance (not_holds hthread hbefore) hafter).mp hholds

omit [DecidableEq ι] in
/-- A step that touches neither the shared state nor the threads. -/
theorem Shared.record (h : Shared s) (main : Main) {history : List (MountEvent ι)}
    (hreplay : replay history = replay s.history) : Shared { s with main, history } where
  message := h.message.trans (congrArg _ hreplay.symm)
  flag hstop := h.flag (hreplay ▸ hstop)
  halted hstop := (congrArg _ hreplay).trans (h.halted hstop)
  holder other hholds := (congrArg _ hreplay).trans (h.holder other hholds)

/-- The shared state stays the one of single steps. -/
theorem Shared.step (h : Shared s) (hstep : MountStep addr s s') : Shared s' := by
  cases hstep with
  | ready hmain => exact h.record _ rfl
  | fails hmain => exact h.record _ rfl
  | wake hmain hstop => exact h.record _ rfl
  | unmount hmain => exact h.record _ rfl
  | join hmain hidle => exact h.record _ rfl
  | decide hmain hlock => exact h.record _ (replay_concat _ _)
  | stop hmain hidle => exact h.record _ (replay_concat _ _)
  | begins i hmain hidle => exact h.advance hidle (by simp) (by simp) rfl
  | answered i hwaiting => exact h.advance hwaiting (by simp) (by simp) rfl
  | lost i e hwaiting hlost => exact h.advance hwaiting (by simp) (by simp) (replay_concat _ _)
  | ends result hwaiting => exact h.advance hwaiting (by simp) (by simp) (replay_concat _ _)
  | ignores hnoticed hstop => exact h.advance hnoticed (by simp) (by simp) rfl
  | reports hnoticed hstop => exact h.advance hnoticed (by simp) (by simp) rfl
  | interrupt hmain hfailed =>
    have hreplay := replay_concat s.history .interrupted
    exact ⟨h.message.trans (congrArg MountState.disconnectMessage hreplay).symm,
      fun _ => .inl rfl, fun _ => congrArg MountState.stop hreplay,
      fun _ _ => congrArg MountState.stop hreplay⟩
  | @takes message who hcalled hfree =>
    have hreplay := (replay_concat s.history (.recorded who message)).trans
      (MountState.halt_keep _ message).symm
    have hstop := congrArg MountState.stop hreplay
    refine ⟨?_, fun _ => .inr ⟨who, s.advance_self who _⟩, fun _ => hstop, fun _ _ => hstop⟩
    refine Eq.trans ?_ (congrArg MountState.disconnectMessage hreplay).symm
    exact congrArg (· <|> some message) h.message
  | stores who hlocked =>
    have hstop := h.holder who (hlocked ▸ trivial)
    exact ⟨h.message, fun _ => .inl rfl, fun _ => hstop, fun _ _ => hstop⟩
  | releases who hstored =>
    have hstop := h.holder who (hstored ▸ trivial)
    refine ⟨h.message, fun _ => ?_, fun _ => hstop, fun _ _ => hstop⟩
    refine (h.flag hstop).imp_right fun ⟨other, hlocked⟩ => ⟨other, ?_⟩
    have hother : other ≠ who := by
      rintro rfl
      rw [hstored] at hlocked
      cases hlocked
    exact (Mount.advance_of_ne hother _ _).trans hlocked

end

/-! ### How far the main thread has got -/

/-- The main thread goes on only with the flag, and says in the history what it has done. -/
structure Phased (s : Mount ι) : Prop where
  past    : s.main = .leaving ∨ s.main.reason ≠ none → s.shared.stop = true
  decided : ∀ reason, .decided reason ∈ s.history ↔ s.main.reason = some reason
  cut     : .shutDown ∈ s.history ↔ s.main.cut = true
  closed  : s.main.cut = true → ∀ i, s.thread (some i) = .idle
  joined  : ∀ reason, s.main = .returned reason → s.thread none = .idle

/-- At the start the main thread has done nothing. -/
theorem Phased.start : Phased (.start : Mount ι) where
  past h := by simp [Mount.start, Main.reason] at h
  decided := by simp [Mount.start, Main.reason]
  cut := by simp [Mount.start, Main.cut]
  closed h := by simp [Mount.start, Main.cut] at h
  joined reason h := by simp [Mount.start] at h

section

variable [DecidableEq ι] {addr : String} {s s' : Mount ι} {who other : Option ι}
  {thread thread' : Thread}

/-- The flag stays set. -/
theorem MountStep.stop_mono (hstep : MountStep addr s s') (hstop : s.shared.stop = true) :
    s'.shared.stop = true := by
  cases hstep with
  | interrupt hmain hfailed => rfl
  | stores who hlocked => rfl
  | _ => exact hstop

/-- A step of a thread that is not over. -/
theorem Phased.advance (h : Phased s) (hthread : s.thread who = thread) (hidle : thread ≠ .idle)
    {history : List (MountEvent ι)} {shared : MountState} {lock : Option (Option ι)}
    (hstop : s.shared.stop = true → shared.stop = true)
    (hdecided : ∀ reason, .decided reason ∈ history ↔ .decided reason ∈ s.history)
    (hcut : .shutDown ∈ history ↔ .shutDown ∈ s.history) :
    Phased { s with shared, lock, thread := s.advance who thread', history } where
  past hmain := hstop (h.past hmain)
  decided reason := (hdecided reason).trans (h.decided reason)
  cut := hcut.trans h.cut
  closed hmain i := by
    have hne : some i ≠ who := by
      rintro rfl
      exact hidle (hthread.symm.trans (h.closed hmain i))
    exact (Mount.advance_of_ne hne _ _).trans (h.closed hmain i)
  joined reason hmain := by
    have hne : none ≠ who := by
      rintro rfl
      exact hidle (hthread.symm.trans (h.joined reason hmain))
    exact (Mount.advance_of_ne hne _ _).trans (h.joined reason hmain)

omit [DecidableEq ι] in
/-- A step of the main thread between two places with the same verdict. -/
theorem Phased.main (h : Phased s) {main : Main} (hreason : main.reason = s.main.reason)
    (hcut : main.cut = s.main.cut) (hpast : main = .leaving → s.shared.stop = true)
    (hjoined : ∀ reason, main = .returned reason → s.thread none = .idle) :
    Phased { s with main } where
  past hmain := hmain.elim hpast fun hne => h.past (.inr (hreason ▸ hne))
  decided reason := by rw [h.decided reason, hreason]
  cut := by rw [h.cut, hcut]
  closed hmain := h.closed (hcut ▸ hmain)
  joined := hjoined

/-- The main thread says what it does in every step. -/
theorem Phased.step (h : Phased s) (hstep : MountStep addr s s') : Phased s' := by
  cases hstep with
  | ready hmain => exact h.main (by rw [hmain]; rfl) (by rw [hmain]; rfl) nofun nofun
  | fails hmain => exact h.main (by rw [hmain]; rfl) (by rw [hmain]; rfl) nofun nofun
  | wake hmain hstop =>
    exact h.main (by rw [hmain]; rfl) (by rw [hmain]; rfl) (fun _ => hstop) nofun
  | unmount hmain => exact h.main (by rw [hmain]; rfl) (by rw [hmain]; rfl) nofun nofun
  | join hmain hidle =>
    exact h.main (by rw [hmain]; rfl) (by rw [hmain]; rfl) nofun fun _ _ => hidle
  | interrupt hmain hfailed =>
    refine ⟨fun _ => rfl, fun reason => ?_, ?_, h.closed, h.joined⟩
    · exact (by simp : .decided reason ∈ s.history ++ [.interrupted] ↔ _).trans (h.decided reason)
    · exact (by simp : .shutDown ∈ s.history ++ [.interrupted] ↔ _).trans h.cut
  | decide hmain hlock =>
    have hnone : ∀ reason, .decided reason ∉ s.history := fun reason hmem => by
      rw [h.decided, hmain] at hmem
      cases hmem
    refine ⟨fun _ => h.past (.inl hmain), fun reason => ?_, ?_, nofun, nofun⟩
    · simp [hnone reason, Main.reason, eq_comm]
    · simp [h.cut, hmain, Main.cut]
  | @stop reason hmain hidle =>
    refine ⟨fun _ => h.past (.inr ?_), fun other => ?_, ?_, fun _ => hidle, nofun⟩
    · rw [hmain]
      exact Option.some_ne_none _
    · simp [h.decided, hmain, Main.reason]
    · simp [Main.cut]
  | begins i hmain hidle =>
    -- after the end of the callbacks there is none to begin
    refine ⟨h.past, h.decided, h.cut, fun hcut => ?_, fun reason hreturned => ?_⟩
    · have hclosed : s.main.closed = true := by
        cases hs : s.main <;> rw [hs] at hcut <;> cases hcut <;> rfl
      rw [hclosed] at hmain
      cases hmain
    · exact (Mount.advance_of_ne (Option.some_ne_none i).symm s .waiting).trans
        (h.joined reason hreturned)
  | answered i hwaiting =>
    exact h.advance hwaiting (by simp) id (fun _ => .rfl) .rfl
  | lost i e hwaiting hlost =>
    exact h.advance hwaiting (by simp) id (by simp) (by simp)
  | ends result hwaiting => exact h.advance hwaiting (by simp) id (by simp) (by simp)
  | ignores hnoticed hstop => exact h.advance hnoticed (by simp) id (fun _ => .rfl) .rfl
  | reports hnoticed hstop => exact h.advance hnoticed (by simp) id (fun _ => .rfl) .rfl
  | takes who hcalled hlock => exact h.advance hcalled (by simp) id (by simp) (by simp)
  | stores who hlocked => exact h.advance hlocked (by simp) (fun _ => rfl) (fun _ => .rfl) .rfl
  | releases who hstored => exact h.advance hstored (by simp) id (fun _ => .rfl) .rfl

end

/-! ### Where the messages come from -/

/-- What a report rests on: a request that was lost, or the end of the connection of the
    monitor, unless the mount has shut it down itself. -/
inductive Cause (addr : String) (history : List (MountEvent ι)) : Option ι → String → Prop
  | request (i : ι) (e : IoError) (hlost : isDisconnectError e = true)
    (hmem : .lost i e ∈ history) : Cause addr history (some i) (lossMessage e)
  | monitor (result : Except IoError Unit) (hmem : .ended result ∈ history)
    (hown : ¬ [.shutDown, .ended result] <+ history) :
    Cause addr history none (monitorMessage addr result)

/-- A cause stays one in the longer history. -/
theorem Cause.grow {addr : String} {history : List (MountEvent ι)} {who : Option ι}
    {message : String} (h : Cause addr history who message) {event : MountEvent ι}
    (hevent : ∀ result, event = .ended result → ∀ result', .ended result' ∉ history) :
    Cause addr (history ++ [event]) who message := by
  cases h with
  | request i e hlost hmem => exact .request i e hlost (List.mem_append_left _ hmem)
  | monitor result hmem hown =>
    refine .monitor result (List.mem_append_left _ hmem) fun hsub => ?_
    rcases pair_concat.mp hsub with hold | ⟨heq, -⟩
    · exact hown hold
    · exact hevent result heq.symm result hmem

/-- Every report has its cause, and the connection of the monitor ends once. -/
structure Sourced (addr : String) (s : Mount ι) : Prop where
  called   : ∀ who m, s.thread who = .called m → Cause addr s.history who m
  recorded : ∀ who m, .recorded who m ∈ s.history → Cause addr s.history who m
  noticed  : ∀ m, s.thread none = .noticed m →
    ∃ result, m = monitorMessage addr result ∧ .ended result ∈ s.history
  fresh    : s.thread none = .waiting → ∀ result, .ended result ∉ s.history
  single   : ∀ result result', .ended result ∈ s.history → .ended result' ∈ s.history →
    result = result'

/-- At the start there is no report. -/
theorem Sourced.start (addr : String) : Sourced addr (.start : Mount ι) where
  called who m h := by cases who <;> cases h
  recorded := by simp [Mount.start]
  noticed := nofun
  fresh := by simp [Mount.start]
  single := by simp [Mount.start]

section

variable [DecidableEq ι] {addr : String} {s s' : Mount ι} {who other : Option ι}
  {thread : Thread}

omit [DecidableEq ι] in
/-- A step that adds to the history. -/
theorem Sourced.record (h : Sourced addr s) (main : Main) (shared : MountState)
    {event : MountEvent ι} (hended : ∀ result, event ≠ .ended result)
    (hrecorded : ∀ who m, event = .recorded who m → Cause addr s.history who m) :
    Sourced addr { s with main, shared, history := s.history ++ [event] } := by
  have hold : ∀ result, .ended result ∈ s.history ++ [event] → .ended result ∈ s.history :=
    fun result hmem => (List.mem_append.mp hmem).resolve_right fun hlast =>
      hended result (List.mem_singleton.mp hlast).symm
  have hgrow : ∀ {who m}, Cause addr s.history who m → Cause addr (s.history ++ [event]) who m :=
    fun hcause => hcause.grow fun result heq => absurd heq (hended result)
  refine ⟨fun who m hcalled => hgrow (h.called who m hcalled), fun who m hmem => ?_,
    fun m hnoticed => ?_, fun hwaiting result hmem => h.fresh hwaiting result (hold result hmem),
    fun result result' hmem hmem' => h.single _ _ (hold _ hmem) (hold _ hmem')⟩
  · rcases List.mem_append.mp hmem with hmem | hlast
    · exact hgrow (h.recorded who m hmem)
    · exact hgrow (hrecorded who m (List.mem_singleton.mp hlast).symm)
  · obtain ⟨result, heq, hmem⟩ := h.noticed m hnoticed
    exact ⟨result, heq, List.mem_append_left _ hmem⟩

/-- A step of a thread. -/
theorem Sourced.advance (h : Sourced addr s)
    (hcalled : ∀ m, thread = .called m → Cause addr s.history who m)
    (hnoticed : ∀ m, thread ≠ .noticed m) (hwaiting : who = none → thread ≠ .waiting)
    (shared : MountState) (lock : Option (Option ι)) :
    Sourced addr { s with shared, lock, thread := s.advance who thread } := by
  have hold : ∀ {other place}, s.advance who thread other = place →
      (other = who → thread ≠ place) → s.thread other = place := fun {other place} hplace hne => by
    by_cases hother : other = who
    · rw [hother, s.advance_self] at hplace
      exact absurd hplace (hne hother)
    · rwa [Mount.advance_of_ne hother] at hplace
  refine ⟨fun other m hm => ?_, h.recorded, fun m hm => h.noticed m (hold hm fun _ => hnoticed m),
    fun hm => h.fresh (hold hm fun hwho => hwaiting hwho.symm), h.single⟩
  by_cases hnew : other = who ∧ thread = .called m
  · rw [hnew.1]
    exact hcalled m hnew.2
  · exact h.called other m (hold hm fun hother heq => hnew ⟨hother, heq⟩)

/-- Every report has its cause after every step. -/
theorem Sourced.step (h : Sourced addr s) (hphased : Phased s) (hstep : MountStep addr s s') :
    Sourced addr s' := by
  cases hstep with
  | ready hmain => exact ⟨h.called, h.recorded, h.noticed, h.fresh, h.single⟩
  | fails hmain => exact ⟨h.called, h.recorded, h.noticed, h.fresh, h.single⟩
  | wake hmain hstop => exact ⟨h.called, h.recorded, h.noticed, h.fresh, h.single⟩
  | unmount hmain => exact ⟨h.called, h.recorded, h.noticed, h.fresh, h.single⟩
  | join hmain hidle => exact ⟨h.called, h.recorded, h.noticed, h.fresh, h.single⟩
  | interrupt hmain hfailed => exact h.record _ _ nofun nofun
  | decide hmain hlock => exact h.record _ _ nofun nofun
  | stop hmain hidle => exact h.record _ _ nofun nofun
  | begins i hmain hidle => exact h.advance (by simp) (by simp) (by simp) _ _
  | answered i hwaiting => exact h.advance (by simp) (by simp) (by simp) _ _
  | ignores hnoticed hstop => exact h.advance (by simp) (by simp) (by simp) _ _
  | stores who hlocked => exact h.advance (by simp) (by simp) (by simp) _ _
  | releases who hstored => exact h.advance (by simp) (by simp) (by simp) _ _
  | lost i e hwaiting hlost =>
    have hrecord : Sourced addr { s with history := s.history ++ [.lost i e] } :=
      h.record _ _ (by simp) (by simp)
    refine hrecord.advance (fun m hm => ?_) (by simp) (by simp) s.shared s.lock
    cases hm
    exact .request i e hlost List.mem_concat_self
  | @reports message hnoticed hstop =>
    refine h.advance (fun m hm => ?_) (by simp) (by simp) _ _
    cases hm
    obtain ⟨result, rfl, hmem⟩ := h.noticed message hnoticed
    -- the flag is not set, so that the mount has not shut anything down
    refine .monitor result hmem fun hsub => ?_
    have hcut := hphased.cut.mp (hsub.subset List.mem_cons_self)
    rw [hphased.past (.inr ?_)] at hstop
    · cases hstop
    · intro hnone
      cases hs : s.main <;> rw [hs] at hcut hnone <;> cases hcut <;> cases hnone
  | @takes message who hcalled hlock =>
    have hrecord : Sourced addr { s with history := s.history ++ [.recorded who message] } := by
      refine h.record _ _ (by simp) fun other m heq => ?_
      cases heq
      exact h.called who message hcalled
    exact hrecord.advance (by simp) (by simp) (by simp) _ _
  | ends result hwaiting =>
    have hfresh := h.fresh hwaiting
    have hgrow : ∀ {who m}, Cause addr s.history who m →
        Cause addr (s.history ++ [.ended result]) who m := fun hcause =>
      hcause.grow fun _ _ => hfresh
    have hlast : ∀ r, .ended r ∈ s.history ++ [.ended result] → r = result := fun r hr => by
      rcases List.mem_append.mp hr with hr | hr
      · exact absurd hr (hfresh r)
      · cases List.mem_singleton.mp hr
        rfl
    have hself := s.advance_self none (.noticed (monitorMessage addr result))
    refine ⟨fun other m hm => hgrow (h.called other m ?_), fun other m hm => ?_, fun m hm => ?_,
      fun hm => ?_, fun r r' hr hr' => (hlast r hr).trans (hlast r' hr').symm⟩
    · have hother : other ≠ none := by
        rintro rfl
        cases hself.symm.trans hm
      exact (Mount.advance_of_ne hother s _).symm.trans hm
    · exact hgrow (h.recorded other m ((List.mem_append.mp hm).resolve_right (by simp)))
    · cases hself.symm.trans hm
      exact ⟨result, rfl, List.mem_concat_self⟩
    · cases hself.symm.trans hm

end

/-! ### The verdict -/

/-- The report that came first. -/
def First (history : List (MountEvent ι)) (who : Option ι) (message : String) : Prop :=
  ∃ before after, history = before ++ .recorded who message :: after ∧
    ∀ other m, .recorded other m ∉ before

/-- The first report stays the first. -/
theorem First.grow {history : List (MountEvent ι)} {who : Option ι} {message : String}
    (h : First history who message) (event : MountEvent ι) :
    First (history ++ [event]) who message := by
  obtain ⟨before, after, rfl, hnone⟩ := h
  exact ⟨before, after ++ [event], by simp, hnone⟩

/-- Without a message nothing has been reported. -/
theorem recorded_of_no_message {history : List (MountEvent ι)}
    (h : (replay history).disconnectMessage = none) : ∀ who m, .recorded who m ∉ history := by
  induction history using List.reverseRecOn with
  | nil => exact fun _ _ => List.not_mem_nil
  | append_singleton history event ih =>
    rw [replay_concat] at h
    intro who m hmem
    cases event with
    | recorded who' m' =>
      unfold MountEvent.apply MountState.reportDisconnect at h
      cases hold : (replay history).disconnectMessage <;> rw [hold] at h <;> cases h
    | interrupted | lost i e | ended result | decided reason | shutDown =>
      exact ih h who m ((List.mem_append.mp hmem).resolve_right (by simp))

/-- The message is the one of the first report. -/
theorem first_of_message {history : List (MountEvent ι)} {message : String}
    (h : (replay history).disconnectMessage = some message) : ∃ who, First history who message := by
  induction history using List.reverseRecOn with
  | nil => cases h
  | append_singleton history event ih =>
    rw [replay_concat] at h
    cases event with
    | recorded who m =>
      unfold MountEvent.apply MountState.reportDisconnect at h
      cases hold : (replay history).disconnectMessage with
      | none =>
        rw [hold] at h
        cases h
        exact ⟨who, history, [], rfl, recorded_of_no_message hold⟩
      | some old =>
        rw [hold] at h
        cases h
        exact (ih hold).imp fun other hfirst => hfirst.grow _
    | interrupted | lost i e | ended result | decided reason | shutDown =>
      exact (ih h).imp fun other hfirst => hfirst.grow _

/-- The flag is set by Ctrl+C or by a report. -/
theorem replay_stop {history : List (MountEvent ι)} (h : (replay history).stop = true) :
    .interrupted ∈ history ∨ ∃ who m, .recorded who m ∈ history := by
  induction history using List.reverseRecOn with
  | nil => cases h
  | append_singleton history event ih =>
    rw [replay_concat] at h
    cases event with
    | interrupted => exact .inl List.mem_concat_self
    | recorded who m => exact .inr ⟨who, m, List.mem_concat_self⟩
    | lost i e | ended result | decided reason | shutDown =>
      exact (ih h).imp (List.mem_append_left _) fun ⟨who, m, hmem⟩ =>
        ⟨who, m, List.mem_append_left _ hmem⟩

/-- Why the main thread ends the mount: for Ctrl+C, which came before any report, or for the
    first report. -/
inductive Explained (addr : String) (history : List (MountEvent ι)) : ShutdownReason → Prop
  | interrupted (hmem : .interrupted ∈ history) (hnone : ∀ who m, .recorded who m ∉ history) :
    Explained addr history .interrupted
  | disconnected {who message} (hfirst : First history who message)
    (hcause : Cause addr history who message) :
    Explained addr history (.serverDisconnected message)

/-- What holds in all runs of a mount. -/
structure Mount.Sound (addr : String) (s : Mount ι) : Prop where
  /-- There is one verdict, and what came before explains it. -/
  explained : ∀ earlier reason later, s.history = earlier ++ .decided reason :: later →
    Explained addr earlier reason
  once      : ∀ reason reason', ¬ [.decided reason, .decided reason'] <+ s.history
  /-- It stays, and the message with it. -/
  kept      : ∀ reason, .decided reason ∈ s.history → s.main.reason = some reason ∧
    ∀ m, reason = .serverDisconnected m → s.shared.disconnectMessage = some m
  /-- That the mount shuts down the connection of the monitor is not reported. -/
  own       : ∀ result, [.shutDown, .ended result] <+ s.history → ∀ m, .recorded none m ∉ s.history
  /-- Outside of a report the shared state is the one of single steps. -/
  atomic    : s.lock = none → s.shared = replay s.history
  /-- When `run_mount` returns, everybody has come to an end. -/
  quiet     : ∀ reason, s.main = .returned reason → s.lock = none ∧ ∀ who, s.thread who = .idle

/-- The invariant of all runs. -/
structure Mount.Inv (addr : String) (s : Mount ι) : Prop where
  exclusive : Exclusive s
  shared    : Shared s
  phased    : Phased s
  sourced   : Sourced addr s
  explained : ∀ earlier reason later, s.history = earlier ++ .decided reason :: later →
    Explained addr earlier reason
  once      : ∀ reason reason', ¬ [.decided reason, .decided reason'] <+ s.history
  kept      : ∀ m, .decided (.serverDisconnected m) ∈ s.history →
    s.shared.disconnectMessage = some m

section

variable [DecidableEq ι] {addr : String} {s s' : Mount ι}

/-- What a step adds to the history. -/
theorem MountStep.history_cases (hstep : MountStep addr s s') : s'.history = s.history ∨
    ∃ event, s'.history = s.history ++ [event] ∧
      ∀ reason, event = .decided reason → s.main = .leaving ∧ reason = .of s.shared := by
  cases hstep with
  | interrupt hmain hfailed => exact .inr ⟨_, rfl, nofun⟩
  | stop hmain hidle => exact .inr ⟨_, rfl, nofun⟩
  | lost i e hwaiting hlost => exact .inr ⟨_, rfl, nofun⟩
  | ends result hwaiting => exact .inr ⟨_, rfl, nofun⟩
  | takes who hcalled hlock => exact .inr ⟨_, rfl, nofun⟩
  | decide hmain hlock =>
    refine .inr ⟨_, rfl, fun reason heq => ⟨hmain, ?_⟩⟩
    injection heq with heq
    exact heq.symm
  | _ => exact .inl rfl

/-- A message that is in its place stays. -/
theorem MountStep.message_mono (hstep : MountStep addr s s') {m : String}
    (h : s.shared.disconnectMessage = some m) : s'.shared.disconnectMessage = some m := by
  cases hstep with
  | takes who hcalled hlock => exact (congrArg (· <|> some _) h).trans rfl
  | _ => exact h

/-- A mount that ends for a message has it from the shared state. -/
theorem message_of_reason {state : MountState} {m : String}
    (h : .serverDisconnected m = ShutdownReason.of state) : state.disconnectMessage = some m := by
  unfold ShutdownReason.of at h
  cases hm : state.disconnectMessage <;> rw [hm] at h <;> cases h
  rfl

omit [DecidableEq ι] in
/-- What the main thread reads explains what it decides. -/
theorem explained_of_leaving (hmain : s.main = .leaving) (hshared : Shared s) (hphased : Phased s)
    (hsourced : Sourced addr s) : Explained addr s.history (.of s.shared) := by
  unfold ShutdownReason.of
  rw [hshared.message]
  cases hm : (replay s.history).disconnectMessage with
  | none =>
    have hnone := recorded_of_no_message hm
    have hstop := hshared.halted (hphased.past (.inl hmain))
    refine .interrupted ((replay_stop hstop).resolve_right ?_) hnone
    rintro ⟨who, m, hmem⟩
    exact hnone who m hmem
  | some m =>
    obtain ⟨who, hfirst⟩ := first_of_message hm
    refine .disconnected hfirst (hsourced.recorded who m ?_)
    obtain ⟨before, after, heq, -⟩ := hfirst
    rw [heq]
    exact List.mem_append_right _ List.mem_cons_self

omit [DecidableEq ι] in
/-- At the start the invariant holds. -/
theorem Mount.Inv.start : Mount.Inv addr (.start : Mount ι) where
  exclusive who := by cases who <;> exact iff_of_false id nofun
  shared := .start
  phased := .start
  sourced := .start addr
  explained earlier reason later h := by simp [Mount.start] at h
  once reason reason' h := by simp [Mount.start] at h
  kept m h := by simp [Mount.start] at h

/-- Every step keeps the invariant. -/
theorem Mount.Inv.step (h : s.Inv addr) (hstep : MountStep addr s s') : s'.Inv addr where
  exclusive := h.exclusive.step hstep
  shared := h.shared.step hstep
  phased := h.phased.step hstep
  sourced := h.sourced.step h.phased hstep
  explained earlier reason later heq := by
    rcases hstep.history_cases with hsame | ⟨event, hadds, hdecided⟩
    · exact h.explained earlier reason later (hsame ▸ heq)
    · rw [hadds] at heq
      rcases split_concat heq with ⟨later', hold⟩ | ⟨rfl, hlast⟩
      · exact h.explained earlier reason later' hold
      · obtain ⟨hmain, rfl⟩ := hdecided reason hlast.symm
        exact explained_of_leaving hmain h.shared h.phased h.sourced
  once reason reason' hsub := by
    rcases hstep.history_cases with hsame | ⟨event, hadds, hdecided⟩
    · exact h.once reason reason' (hsame ▸ hsub)
    · rw [hadds] at hsub
      rcases pair_concat.mp hsub with hold | ⟨hlast, hmem⟩
      · exact h.once reason reason' hold
      · -- the main thread decides when it has not decided yet
        have hreason := (h.phased.decided reason).mp hmem
        rw [(hdecided reason' hlast.symm).1] at hreason
        cases hreason
  kept m hmem := by
    rcases hstep.history_cases with hsame | ⟨event, hadds, hdecided⟩
    · exact hstep.message_mono (h.kept m (hsame ▸ hmem))
    · rw [hadds] at hmem
      rcases List.mem_append.mp hmem with hold | hlast
      · exact hstep.message_mono (h.kept m hold)
      · have hreason := (hdecided _ (List.mem_singleton.mp hlast).symm).2
        exact hstep.message_mono (message_of_reason hreason)

/-- The invariant holds in every run. -/
theorem Mount.Inv.of_mounted (hrun : Mounted addr s) : s.Inv addr := by
  induction hrun with
  | refl => exact .start
  | tail _ hstep ih => exact ih.step hstep

omit [DecidableEq ι] in
/-- Outside of a report the shared state is the one of single steps. -/
theorem Mount.Inv.shared_eq (h : s.Inv addr) (hlock : s.lock = none) :
    s.shared = replay s.history := by
  have hstop : s.shared.stop = (replay s.history).stop := by
    refine Bool.eq_iff_iff.mpr ⟨h.shared.halted, fun hreplay => ?_⟩
    refine (h.shared.flag hreplay).resolve_right fun ⟨who, hlocked⟩ => ?_
    have hhas := (h.exclusive who).mp (hlocked ▸ trivial)
    rw [hlock] at hhas
    cases hhas
  exact MountState.eq_of_fields hstop h.shared.message

omit [DecidableEq ι] in
/-- When the main thread has returned, so has everybody else. -/
theorem Mount.Inv.idle (h : s.Inv addr) {reason : ShutdownReason}
    (hmain : s.main = .returned reason) (who : Option ι) : s.thread who = .idle := by
  cases who with
  | none => exact h.phased.joined reason hmain
  | some i => exact h.phased.closed (by rw [hmain]; rfl) i

/-- **Why a mount ends.**  In every run of the threads of a mount the main thread decides once,
    for Ctrl+C if no report came before it, and else for the first report, which rests on a lost
    request or on the end of the monitor's connection, and never on its own shutdown; and
    `run_mount` returns when everybody has come to an end. -/
theorem sound_of_mounted (addr : String) (s : Mount ι) (hrun : Mounted addr s) :
    s.Sound addr := by
  have h := Mount.Inv.of_mounted hrun
  refine ⟨h.explained, h.once, fun reason hmem => ⟨(h.phased.decided reason).mp hmem, ?_⟩,
    fun result hsub m hmem => ?_, h.shared_eq, fun reason hmain => ⟨?_, h.idle hmain⟩⟩
  · rintro m rfl
    exact h.kept m hmem
  · -- the connection of the monitor ends once, and a report of it comes before the shutdown
    cases h.sourced.recorded none m hmem with
    | monitor result' hmem' hown =>
      exact hown (h.sourced.single result result' (hsub.subset (by simp)) hmem' ▸ hsub)
  · cases hlock : s.lock with
    | none => rfl
    | some who =>
      have hholds := (h.exclusive who).mpr hlock
      rw [h.idle hmain who] at hholds
      cases hholds

/-- The server closes the connection of the monitor, and nobody presses Ctrl+C. -/
theorem sound_of_mounted_closed : ∃ s : Mount Unit, Mounted "[::1]:4000" s ∧
    s.main = .returned (.serverDisconnected "lost connection to server at [::1]:4000") ∧
    s.Sound "[::1]:4000" := by
  obtain ⟨s, hmain, hrun⟩ : ∃ s : Mount Unit,
      s.main = .returned (.serverDisconnected "lost connection to server at [::1]:4000") ∧
      Mounted "[::1]:4000" s :=
    ⟨_, rfl, ((((((((((Relation.ReflTransGen.refl.tail (.ready rfl)).tail
      (.ends (.ok ()) rfl)).tail
      (.reports rfl rfl)).tail
      (.takes none rfl rfl)).tail
      (.stores none rfl)).tail
      (.wake rfl rfl)).tail
      (.releases none rfl)).tail
      (.decide rfl rfl)).tail
      (.unmount rfl)).tail
      (.stop rfl fun _ => rfl)).tail
      (.join rfl rfl)⟩
  exact ⟨s, hrun, hmain, sound_of_mounted _ s hrun⟩

end

end Netfilum
