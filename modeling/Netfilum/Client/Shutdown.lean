import Netfilum.Client.Mount
import Netfilum.Lib.Run

namespace Netfilum

open Rust Temporal
open scoped List

/-!
# The mount comes to its end

A loss that anybody notices, and Ctrl+C, make `run_mount` return, whatever the callbacks are
doing: nobody waits for a lock that is not given back, or for a thread that does not end.

* `CanGo`, `MainCanGo`, `MountFair` — a thread that can go on again and again does go on.
* `free_again` — the lock is given back;  `comes_to_idle` — callbacks and monitor end when they
  are told to.
* `stop_of_alarmed` — who has noticed a loss sets the flag.
* `returns_of_alarm` — then the main thread returns.
-/

variable {ι : Type} [DecidableEq ι] {addr : String} {s s' : Mount ι}

/-! ### Who can go on -/

/-- The thread can take its next step by itself: a request ends after its timeouts, and the
    connection of the monitor when it is shut down. -/
def Mount.CanGo (who : Option ι) (s : Mount ι) : Prop :=
  match s.thread who with
  | .idle                           => False
  | .waiting                        => who = none → s.main.cut = true
  | .called _                       => s.lock = none
  | .noticed _ | .locked | .stored  => True

/-- So can the main thread. -/
def Mount.MainCanGo (s : Mount ι) : Prop :=
  match s.main with
  | .mounting | .unmounting _ => True
  | .polling                  => s.shared.stop = true
  | .leaving                  => s.lock = none
  | .stopping _               => ∀ i, s.thread (some i) = .idle
  | .joining _                => s.thread none = .idle
  | .returned _ | .failed     => False

/-- A run of the threads of a mount. -/
abbrev MountRun (ι : Type) [DecidableEq ι] (addr : String) : Type :=
  Run (MountStep addr) (.start : Mount ι)

/-- Whoever can go on again and again does go on. -/
structure MountFair (run : MountRun ι addr) : Prop where
  main   : run.Fair Mount.MainCanGo fun s s' => s'.main ≠ s.main
  thread : ∀ who, run.Fair (Mount.CanGo who) fun s s' => s'.thread who ≠ s.thread who

/-! ### What a step does -/

/-- How many steps a thread has before it. -/
def Thread.remaining : Thread → Nat
  | .idle      => 0
  | .stored    => 1
  | .locked    => 2
  | .called _  => 3
  | .noticed _ => 4
  | .waiting   => 5

/-- How many steps the main thread has before it. -/
def Main.remaining : Main → Nat
  | .returned _ | .failed => 0
  | .joining _            => 1
  | .stopping _           => 2
  | .unmounting _         => 3
  | .leaving              => 4
  | .polling              => 5
  | .mounting             => 6

/-- The thread does not begin anything: WinFsp makes no more callbacks on it, or it is the one
    of the monitor. -/
def Mount.Shut (s : Mount ι) (who : Option ι) : Prop := who ≠ none → s.main.closed = true

/-- A thread that begins nothing stays where it is or comes closer to its end. -/
theorem MountStep.remaining_thread (hstep : MountStep addr s s') {who : Option ι}
    (hshut : s.Shut who ∨ s.thread who ≠ .idle) : s'.thread who = s.thread who ∨
      (s'.thread who).remaining < (s.thread who).remaining := by
  have hadvance : ∀ {other : Option ι} {thread : Thread},
      thread.remaining < (s.thread other).remaining →
      s.advance other thread who = s.thread who ∨
        (s.advance other thread who).remaining < (s.thread who).remaining := by
    intro other thread hlt
    by_cases hother : who = other
    · rw [hother, s.advance_self]
      exact .inr hlt
    · exact .inl (Mount.advance_of_ne hother _ _)
  cases hstep with
  | ready hmain => exact .inl rfl
  | fails hmain => exact .inl rfl
  | interrupt hmain hfailed => exact .inl rfl
  | wake hmain hstop => exact .inl rfl
  | decide hmain hlock => exact .inl rfl
  | unmount hmain => exact .inl rfl
  | stop hmain hidle => exact .inl rfl
  | join hmain hidle => exact .inl rfl
  | begins i hmain hidle =>
    -- it is not this thread that begins
    refine .inl (Mount.advance_of_ne (fun hwho => ?_) _ _)
    subst hwho
    rcases hshut with hshut | hbusy
    · rw [hshut (by simp)] at hmain
      cases hmain
    · exact hbusy hidle
  | answered i hwaiting => exact hadvance (by simp [hwaiting, Thread.remaining])
  | lost i e hwaiting hlost => exact hadvance (by simp [hwaiting, Thread.remaining])
  | ends result hwaiting => exact hadvance (by simp [hwaiting, Thread.remaining])
  | ignores hnoticed hstop => exact hadvance (by simp [hnoticed, Thread.remaining])
  | reports hnoticed hstop => exact hadvance (by simp [hnoticed, Thread.remaining])
  | takes who hcalled hlock => exact hadvance (by simp [hcalled, Thread.remaining])
  | stores who hlocked => exact hadvance (by simp [hlocked, Thread.remaining])
  | releases who hstored => exact hadvance (by simp [hstored, Thread.remaining])

/-- The main thread stays where it is or comes closer to its end. -/
theorem MountStep.remaining_main (hstep : MountStep addr s s') :
    s'.main = s.main ∨ s'.main.remaining < s.main.remaining := by
  cases hstep with
  | ready hmain => exact .inr (by simp [hmain, Main.remaining])
  | fails hmain => exact .inr (by simp [hmain, Main.remaining])
  | wake hmain hstop => exact .inr (by simp [hmain, Main.remaining])
  | decide hmain hlock => exact .inr (by simp [hmain, Main.remaining])
  | unmount hmain => exact .inr (by simp [hmain, Main.remaining])
  | stop hmain hidle => exact .inr (by simp [hmain, Main.remaining])
  | join hmain hidle => exact .inr (by simp [hmain, Main.remaining])
  | _ => exact .inl rfl

/-- Who has the lock gives it back before another takes it. -/
theorem MountStep.lock_cases (hstep : MountStep addr s s') :
    s'.lock = s.lock ∨ s.lock = none ∨ s'.lock = none := by
  cases hstep with
  | takes who hcalled hlock => exact .inr (.inl hlock)
  | releases who hstored => exact .inr (.inr rfl)
  | _ => exact .inl rfl

/-- Once no callback begins any more, none ever does. -/
theorem MountStep.closed_mono (hstep : MountStep addr s s') (h : s.main.closed = true) :
    s'.main.closed = true := by
  cases hstep with
  | ready hmain => rw [hmain] at h; cases h
  | fails hmain => rw [hmain] at h; cases h
  | wake hmain hstop => rw [hmain] at h; cases h
  | decide hmain hlock => rw [hmain] at h; cases h
  | unmount hmain => rfl
  | stop hmain hidle => rfl
  | join hmain hidle => rfl
  | _ => exact h

/-- Once the connection of the monitor is shut down, it stays so. -/
theorem MountStep.cut_mono (hstep : MountStep addr s s') (h : s.main.cut = true) :
    s'.main.cut = true := by
  cases hstep with
  | ready hmain => rw [hmain] at h; cases h
  | fails hmain => rw [hmain] at h; cases h
  | wake hmain hstop => rw [hmain] at h; cases h
  | decide hmain hlock => rw [hmain] at h; cases h
  | unmount hmain => rw [hmain] at h; cases h
  | stop hmain hidle => rfl
  | join hmain hidle => rfl
  | _ => exact h

/-! ### Nobody waits for ever -/

section

variable {run : MountRun ι addr}

/-- The invariant of the mount holds in the whole run. -/
theorem inv_state (run : MountRun ι addr) (n : Nat) : (run.state n).Inv addr :=
  run.always (P := Mount.Inv addr) .start (fun _ h hnext => h.step hnext) n

/-- The lock is given back. -/
theorem free_again (hfair : MountFair run) (n : Nat) : ∃ k ≥ n, (run.state k).lock = none := by
  cases hlock : (run.state n).lock with
  | none => exact ⟨n, Nat.le_refl n, hlock⟩
  | some who =>
    refine run.eventually_of_fair (fun s => s.lock = some who) (fun s => s.lock = none)
      (hfair.thread who) (fun s => (s.thread who).remaining) (fun s hne => hne rfl) hlock
      (fun k _ hhas _ _ => ⟨k, Nat.le_refl k, ?_⟩) fun k _ hhas hnot hnext => ?_
    · have hholds := ((inv_state run k).exclusive who).mpr hhas
      unfold Mount.CanGo
      cases hthread : (run.state k).thread who <;> rw [hthread] at hholds <;> trivial
    · rcases hnext.lock_cases with hsame | hfree | hfree
      · have hholds := ((inv_state run k).exclusive who).mpr hhas
        have hbusy : (run.state k).thread who ≠ .idle := fun hidle => by
          rw [hidle] at hholds
          cases hholds
        refine .inr ⟨hsame.trans hhas, ?_, fun hmoves => ?_⟩
        · exact (hnext.remaining_thread (.inr hbusy)).elim (fun h => by rw [h]) Nat.le_of_lt
        · exact (hnext.remaining_thread (.inr hbusy)).resolve_left hmoves
      · exact absurd hfree hnot
      · exact .inl hfree

/-- A thread that wants something gets it, if it is not to wait for the server. -/
theorem can_go_of_still (hfair : MountFair run) {n : Nat} {who : Option ι}
    (hbusy : (run.state n).thread who ≠ .idle)
    (hwaits : (run.state n).thread who = .waiting → who = none → (run.state n).main.cut = true)
    (hstill : ∀ k ≥ n, ¬ (run.state (k + 1)).thread who ≠ (run.state k).thread who) :
    ∃ k ≥ n, (run.state k).CanGo who := by
  obtain ⟨k, hk, hfree⟩ := free_again hfair n
  have hsame := run.eq_of_still (Mount.thread · who) hstill k hk
  cases hthread : (run.state n).thread who with
  | idle => exact absurd hthread hbusy
  | waiting => exact ⟨n, Nat.le_refl n, by unfold Mount.CanGo; rw [hthread]; exact hwaits hthread⟩
  | called m => exact ⟨k, hk, by unfold Mount.CanGo; rw [hsame, hthread]; exact hfree⟩
  | noticed m | locked | stored =>
    exact ⟨n, Nat.le_refl n, by unfold Mount.CanGo; rw [hthread]; trivial⟩

/-- The thread has been told to come to its end. -/
def Mount.Told (s : Mount ι) : Option ι → Prop
  | none   => s.main.cut = true
  | some _ => s.main.closed = true

/-- Who has been told to come to its end stays told. -/
theorem MountStep.told_mono (hstep : MountStep addr s s') {who : Option ι} (h : s.Told who) :
    s'.Told who := by
  cases who with
  | none => exact hstep.cut_mono h
  | some i => exact hstep.closed_mono h

/-- A thread that has been told to ends, and does not begin again. -/
theorem comes_to_idle (hfair : MountFair run) {n : Nat} (who : Option ι)
    (htold : (run.state n).Told who) :
    ∃ k ≥ n, ∀ j ≥ k, (run.state j).Told who ∧ (run.state j).thread who = .idle := by
  have hshut : ∀ {s : Mount ι}, s.Told who → s.Shut who := fun {s} h => by
    cases who with
    | none => exact fun hne => absurd rfl hne
    | some i => exact fun _ => h
  obtain ⟨k, hk, htold, hidle⟩ : ∃ k ≥ n,
      (run.state k).Told who ∧ (run.state k).thread who = .idle := by
    refine run.eventually_of_fair (fun s => s.Told who)
      (fun s => s.Told who ∧ s.thread who = .idle) (hfair.thread who)
      (fun s => (s.thread who).remaining) (fun s hne => hne rfl) htold
      (fun k _ htold hnot hstill => ?_) fun k _ htold hnot hnext => ?_
    · refine can_go_of_still hfair (fun hidle => hnot ⟨htold, hidle⟩) (fun _ hwho => ?_) hstill
      subst hwho
      exact htold
    · have hless := hnext.remaining_thread (.inl (hshut htold))
      exact .inr ⟨hnext.told_mono htold, hless.elim (fun h => by rw [h]) Nat.le_of_lt,
        hless.resolve_left⟩
  refine ⟨k, hk, run.always_from (P := fun s => s.Told who ∧ s.thread who = .idle)
    ⟨htold, hidle⟩ fun j _ ⟨htold, hidle⟩ hnext => ⟨hnext.told_mono htold, ?_⟩⟩
  refine ((hnext.remaining_thread (.inl (hshut htold))).resolve_right ?_).trans hidle
  rw [hidle]
  exact Nat.not_lt_zero _

/-- The thread has noticed a loss and is to set the flag. -/
def Thread.Alarmed : Thread → Prop
  | .noticed _ | .called _ | .locked => True
  | _                                => False

/-- What becomes of a thread that has noticed a loss. -/
theorem MountStep.alarmed (hstep : MountStep addr s s') {who : Option ι}
    (h : (s.thread who).Alarmed) : (s'.thread who).Alarmed ∨ s'.shared.stop = true := by
  have hadvance : ∀ {other : Option ι} {thread thread' : Thread}, s.thread other = thread' →
      (thread'.Alarmed → thread.Alarmed) → (s.advance other thread who).Alarmed := by
    intro other thread thread' hthread himp
    by_cases hother : who = other
    · rw [hother, s.advance_self]
      rw [hother, hthread] at h
      exact himp h
    · rw [Mount.advance_of_ne hother]
      exact h
  cases hstep with
  | begins i hmain hidle => exact .inl (hadvance hidle False.elim)
  | answered i hwaiting => exact .inl (hadvance hwaiting False.elim)
  | lost i e hwaiting hlost => exact .inl (hadvance hwaiting False.elim)
  | ends result hwaiting => exact .inl (hadvance hwaiting False.elim)
  | ignores hnoticed hstop => exact .inr hstop
  | reports hnoticed hstop => exact .inl (hadvance hnoticed fun _ => trivial)
  | takes who hcalled hlock => exact .inl (hadvance hcalled fun _ => trivial)
  | stores who hlocked => exact .inr rfl
  | releases who hstored => exact .inl (hadvance hstored False.elim)
  | _ => exact .inl h

/-- Who has noticed a loss sets the flag. -/
theorem stop_of_alarmed (hfair : MountFair run) {n : Nat} {who : Option ι}
    (halarmed : ((run.state n).thread who).Alarmed) :
    ∃ k ≥ n, (run.state k).shared.stop = true := by
  refine run.eventually_of_fair (fun s => (s.thread who).Alarmed) (fun s => s.shared.stop = true)
    (hfair.thread who) (fun s => (s.thread who).remaining) (fun s hne => hne rfl) halarmed
    (fun k _ halarmed _ hstill => ?_) fun k _ halarmed _ hnext => ?_
  · refine can_go_of_still hfair (fun hidle => ?_) (fun hwaiting => ?_) hstill
    · rw [hidle] at halarmed
      exact halarmed.elim
    · rw [hwaiting] at halarmed
      exact halarmed.elim
  · have hbusy : (run.state k).thread who ≠ .idle := fun hidle => by
      rw [hidle] at halarmed
      exact halarmed
    have hless := hnext.remaining_thread (.inr hbusy)
    exact (hnext.alarmed halarmed).symm.imp_right fun h =>
      ⟨h, hless.elim (fun h => by rw [h]) Nat.le_of_lt, hless.resolve_left⟩

/-- When the main thread goes on no more it could, unless it is at its end. -/
theorem main_can_go_of_still [Finite ι] (hfair : MountFair run) {n : Nat}
    (hstop : (run.state n).shared.stop = true) (hleft : (run.state n).main.remaining ≠ 0)
    (hstill : ∀ k ≥ n, ¬ (run.state (k + 1)).main ≠ (run.state k).main) :
    ∃ k ≥ n, (run.state k).MainCanGo := by
  have hsame := run.eq_of_still Mount.main hstill
  cases hmain : (run.state n).main with
  | mounting | unmounting reason =>
    exact ⟨n, Nat.le_refl n, by unfold Mount.MainCanGo; rw [hmain]; trivial⟩
  | polling => exact ⟨n, Nat.le_refl n, by unfold Mount.MainCanGo; rw [hmain]; exact hstop⟩
  | leaving =>
    obtain ⟨k, hk, hfree⟩ := free_again hfair n
    exact ⟨k, hk, by unfold Mount.MainCanGo; rw [hsame k hk, hmain]; exact hfree⟩
  | stopping reason =>
    -- no callback begins any more, and those under way end
    obtain ⟨k, hk, hidle⟩ := run.eventually_all (P := fun i s => s.thread (some i) = .idle)
      fun i => by
        obtain ⟨k, hk, hrest⟩ := comes_to_idle hfair (n := n) (some i) (by
          show (run.state n).main.closed = true
          rw [hmain]
          rfl)
        exact ⟨k, hk, fun j hj => (hrest j hj).2⟩
    exact ⟨k, hk, by unfold Mount.MainCanGo; rw [hsame k hk, hmain]; exact hidle⟩
  | joining reason =>
    obtain ⟨k, hk, hrest⟩ := comes_to_idle hfair (n := n) none (by
      show (run.state n).main.cut = true
      rw [hmain]
      rfl)
    have hidle := (hrest k (Nat.le_refl k)).2
    exact ⟨k, hk, by unfold Mount.MainCanGo; rw [hsame k hk, hmain]; exact hidle⟩
  | returned reason | failed =>
    rw [hmain] at hleft
    exact absurd rfl hleft

/-- With the flag set the main thread comes to its end. -/
theorem ends_of_stop [Finite ι] (hfair : MountFair run) {n : Nat}
    (hstop : (run.state n).shared.stop = true) :
    ∃ k ≥ n, (run.state k).main.remaining = 0 := by
  refine run.eventually_of_fair (fun s => s.shared.stop = true) (fun s => s.main.remaining = 0)
    hfair.main (fun s => s.main.remaining) (fun s hne => hne rfl) hstop
    (fun k _ hstop hleft hstill => main_can_go_of_still hfair hstop hleft hstill)
    fun k _ hstop _ hnext => .inr ⟨hnext.stop_mono hstop, ?_, ?_⟩
  · exact hnext.remaining_main.elim (fun h => by rw [h]) Nat.le_of_lt
  · exact hnext.remaining_main.resolve_left

/-- **A lost server ends the mount.**  If the flag is set, by Ctrl+C or after a report, or if a
    thread has noticed a loss, `run_mount` returns, unless the mount had failed; and if nobody
    has pressed Ctrl+C, it has decided, and warned, that the server was lost. -/
theorem returns_of_alarm [Finite ι] (addr : String) (run : MountRun ι addr)
    (hfair : MountFair run) (n : Nat)
    (halarm : (run.state n).shared.stop = true ∨ ∃ who, ((run.state n).thread who).Alarmed) :
    ∃ k ≥ n, (run.state k).main = .failed ∨ ∃ reason, (run.state k).main = .returned reason ∧
      (.interrupted ∈ (run.state k).history ∨ ∃ m, reason = .serverDisconnected m) := by
  obtain ⟨m, hm, hstop⟩ : ∃ m ≥ n, (run.state m).shared.stop = true := by
    rcases halarm with hstop | ⟨who, halarmed⟩
    · exact ⟨n, Nat.le_refl n, hstop⟩
    · exact stop_of_alarmed hfair halarmed
  obtain ⟨k, hk, hend⟩ := ends_of_stop hfair hstop
  refine ⟨k, Nat.le_trans hm hk, ?_⟩
  have h := inv_state run k
  cases hmain : (run.state k).main with
  | failed => exact .inl rfl
  | returned reason =>
    refine .inr ⟨reason, rfl, ?_⟩
    -- what was decided is explained by what came before
    have hmem := (h.phased.decided reason).mpr (by rw [hmain]; rfl)
    obtain ⟨earlier, later, heq⟩ := List.append_of_mem hmem
    cases h.explained earlier reason later heq with
    | interrupted hpressed hnone =>
      rw [heq]
      exact .inl (List.mem_append_left _ hpressed)
    | disconnected hfirst hcause => exact .inr ⟨_, rfl⟩
  | mounting | polling | leaving | unmounting reason | stopping reason | joining reason =>
    rw [hmain] at hend
    cases hend

end

/-- The server closes the connection of the monitor, whose thread reports it, and the main
    thread ends the mount. -/
def closing : Nat → Mount Unit → Mount Unit
  | 0, s  => { s with main := .polling }
  | 1, s  => { s with
      thread := s.advance none (.noticed (monitorMessage "[::1]:4000" (.ok ())))
      history := s.history ++ [.ended (.ok ())] }
  | 2, s  => { s with
      thread := s.advance none (.called (monitorMessage "[::1]:4000" (.ok ()))) }
  | 3, s  => { s with
      shared := s.shared.keep (monitorMessage "[::1]:4000" (.ok ())), lock := some none
      thread := s.advance none .locked
      history := s.history ++ [.recorded none (monitorMessage "[::1]:4000" (.ok ()))] }
  | 4, s  => { s with shared := s.shared.halt, thread := s.advance none .stored }
  | 5, s  => { s with main := .leaving }
  | 6, s  => { s with lock := none, thread := s.advance none .idle }
  | 7, s  => { s with
      main := .unmounting (.of s.shared), history := s.history ++ [.decided (.of s.shared)] }
  | 8, s  => { s with main := .stopping (.of s.shared) }
  | 9, s  => { s with main := .joining (.of s.shared), history := s.history ++ [.shutDown] }
  | 10, s => { s with main := .returned (.of s.shared) }
  | _, s  => s

/-- The first states of this run. -/
def closedAt : Nat → Mount Unit
  | 0     => .start
  | n + 1 => closing n (closedAt n)

/-- Then nothing happens any more. -/
def closed : MountRun Unit "[::1]:4000" where
  state := closedAt
  initial := rfl
  next
    | 0      => .inr (.ready rfl)
    | 1      => .inr (.ends (.ok ()) rfl)
    | 2      => .inr (.reports rfl rfl)
    | 3      => .inr (.takes none rfl rfl)
    | 4      => .inr (.stores none rfl)
    | 5      => .inr (.wake rfl rfl)
    | 6      => .inr (.releases none rfl)
    | 7      => .inr (.decide rfl rfl)
    | 8      => .inr (.unmount rfl)
    | 9      => .inr (.stop rfl fun _ => rfl)
    | 10     => .inr (.join rfl rfl)
    | _ + 11 => .inl rfl

/-- Everybody has come to an end, so that nobody can go on. -/
theorem closed_fair : MountFair closed := by
  have hstate : ∀ k, closed.state (k + 11) = closedAt 11 := by
    intro k
    induction k with
    | zero => rfl
    | succ k ih => exact ih
  have hend : ∀ {enabled : Mount Unit → Prop} {moves : Mount Unit → Mount Unit → Prop},
      ¬ enabled (closedAt 11) → closed.Fair enabled moves := fun hnot hagain => by
    obtain ⟨k, hk, henabled⟩ := hagain 11
    obtain ⟨j, rfl⟩ := Nat.exists_eq_add_of_le' hk
    rw [hstate] at henabled
    exact absurd henabled hnot
  refine ⟨hend id, fun who => hend ?_⟩
  cases who <;> exact id

/-- The mount ends for the server that was lost. -/
theorem returns_of_alarm_closed : ∃ k ≥ 2, (closed.state k).main = .failed ∨
    ∃ reason, (closed.state k).main = .returned reason ∧
      (.interrupted ∈ (closed.state k).history ∨ ∃ m, reason = .serverDisconnected m) :=
  returns_of_alarm _ closed closed_fair 2 (.inr ⟨none, trivial⟩)

end Netfilum
