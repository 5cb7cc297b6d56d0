import Netfilum.Client.Up
import Netfilum.Lib.Run

namespace Netfilum

open Rust Temporal

/-!
# `netfilum up` comes to its end

Nothing that `run_up` waits for but the mount itself can keep it for ever: the requests end, the
time to wait passes, and a process that is killed exits.

* `Up.CanGo`, `UpFair` — when `run_up` can go on by itself.
* `Up.remaining` — how far it is from its end; the requests that are left count most.
* `returns_or_mounted` — it returns, unless the mount is never ended.
-/

variable {ι : Type} [DecidableEq ι] {addr : String} {s s' : Up ι}

/-- How many steps are left in a phase, but for the requests; no two phases have as many. -/
def UpPhase.left : UpPhase ι → Nat
  | .launching  => 16
  | .creating   => 15
  | .checking _ => 14
  | .timing _   => 13
  | .sleeping _ => 12
  | .asking     => 11
  | .preparing  => 10
  | .mounted _  => 9
  | .stopping _ => 8
  | .killing _  => 7
  | .reaping _  => 6
  | .returned _ => 0

/-- Each request that is left comes with four steps. -/
def Up.remaining (s : Up ι) : Nat := 4 * (226 - (asks s.history).length) + s.phase.left

/-- The main thread has returned from `run_mount`. -/
def Main.Ended (main : Main) : Prop := main = .failed ∨ ∃ reason, main = .returned reason

/-- `run_up` can take its next step: a request ends after its timeouts, a sleep with its time,
    the mount with its main thread, and the wait for the process when it exits. -/
def Up.CanGo (s : Up ι) : Prop :=
  match s.phase with
  | .sleeping wake => wake ≤ s.clock
  | .mounted m     => m.main.Ended
  | .reaping _     => ∃ status, s.child = .exited status
  | .returned _    => False
  | _              => True

/-- A run of `run_up`. -/
abbrev UpRun (ι : Type) [DecidableEq ι] (addr : String) (clock : Nat) : Type :=
  Run (UpStep addr) (.start clock : Up ι)

/-- `run_up` goes on if it can again and again, time passes, and a process exits that has been
    killed. -/
structure UpFair {clock : Nat} (run : UpRun ι addr clock) : Prop where
  main  : run.Fair Up.CanGo fun s s' => s'.phase.left ≠ s.phase.left
  time  : ∀ t, ∃ n, t ≤ (run.state n).clock
  exits : ∀ n result, (run.state n).phase = .reaping result →
    ∃ k ≥ n, ∃ status, (run.state k).child = .exited status

/-! ### What a step does -/

/-- The phase stays, the mount goes on, or there is less left to do. -/
theorem UpStep.phase_cases (hpaced : s.Paced) (hstep : UpStep addr s s') :
    (s'.phase = s.phase ∧ s'.remaining = s.remaining) ∨
    (∃ m m', s.phase = .mounted m ∧ s'.phase = .mounted m' ∧ s'.remaining = s.remaining) ∨
    s'.phase.left ≠ s.phase.left ∧ s'.remaining < s.remaining := by
  unfold Up.Paced at hpaced
  -- a request is one of those that are left
  have hask : ∀ {answer phase}, s.phase = .asking → phase.left ≤ 14 → phase.left ≠ 11 →
      phase.left ≠ s.phase.left ∧
        ((s.record (.asked answer)).goes phase).remaining < s.remaining := by
    intro answer phase hphase hleft hne
    rw [hphase] at hpaced ⊢
    refine ⟨hne, ?_⟩
    have hfew : (asks s.history).length * 200 ≤ 45000 := hpaced.1
    have hasks : asks ((s.record (.asked answer)).goes phase).history
        = asks s.history ++ [answer] := asks_concat _ _
    unfold Up.remaining
    rw [hasks, hphase, List.length_append]
    show 4 * (226 - (_ + 1)) + phase.left < 4 * (226 - _) + 11
    omega
  -- anything else is one step less
  have hgo : ∀ {s₁ : Up ι} {phase}, asks s₁.history = asks s.history →
      phase.left < s.phase.left →
      phase.left ≠ s.phase.left ∧ (s₁.goes phase).remaining < s.remaining := by
    intro s₁ phase hasks hleft
    refine ⟨Nat.ne_of_lt hleft, ?_⟩
    show 4 * (226 - (asks s₁.history).length) + phase.left < _
    rw [hasks]
    exact Nat.add_lt_add_left hleft _
  have hrecord : ∀ {event : UpEvent ι}, event.answer = none →
      asks (s.record event).history = asks s.history := fun hanswer => by
    rw [Up.record, asks_concat, hanswer]
    exact List.append_nil _
  cases hstep with
  | passes clock hlater => exact .inl ⟨rfl, rfl⟩
  | exits status hrunning =>
    exact .inl ⟨rfl, congrArg (fun l => 4 * (226 - List.length l) + _) (hrecord rfl)⟩
  | mounts hphase hstep =>
    refine .inr (.inl ⟨_, _, hphase, rfl, ?_⟩)
    unfold Up.remaining
    rw [hphase]
    rfl
  | answered info hphase =>
    exact .inr (.inr (hask hphase (by simp [Up.goes, UpPhase.left])
      (by simp [Up.goes, UpPhase.left])))
  | unexpected response hphase hother =>
    exact .inr (.inr (hask hphase (by simp [Up.goes, UpPhase.left])
      (by simp [Up.goes, UpPhase.left])))
  | refused error hphase =>
    exact .inr (.inr (hask hphase (by simp [Up.goes, UpPhase.left])
      (by simp [Up.goes, UpPhase.left])))
  | checkFails fault hphase | stopFails fault hphase | reapFails fault hphase =>
    exact .inr (.inr (hgo (hrecord rfl) (by simp [Up.goes, hphase, UpPhase.left])))
  | mountReturns hphase hmain =>
    exact .inr (.inr (hgo (hrecord rfl) (by simp [Up.goes, hphase, UpPhase.left])))
  | kills hphase => exact .inr (.inr (hgo (hrecord rfl) (by simp [Up.goes, hphase, UpPhase.left])))
  | spawned hphase | created hphase | prepared hphase =>
    exact .inr (.inr (hgo rfl (by simp [Up.goes, hphase, UpPhase.left])))
  | spawnFails error hphase | createFails error hphase | prepareFails error hphase =>
    exact .inr (.inr (hgo rfl (by simp [Up.goes, hphase, UpPhase.left])))
  | gone hphase h | alive hphase h | timedOut hphase h | waits hphase h | wakes hphase h =>
    exact .inr (.inr (hgo rfl (by simp [Up.goes, hphase, UpPhase.left])))
  | mountFails error hphase hmain =>
    exact .inr (.inr (hgo rfl (by simp [Up.goes, hphase, UpPhase.left])))
  | stopped hphase h | stops hphase h | reaps hphase h =>
    exact .inr (.inr (hgo rfl (by simp [Up.goes, hphase, UpPhase.left])))

/-- The clock does not go back. -/
theorem UpStep.clock_mono (hstep : UpStep addr s s') : s.clock ≤ s'.clock := by
  cases hstep with
  | passes clock hlater => exact hlater
  | _ => exact Nat.le_refl _

/-! ### Nothing keeps it for ever -/

section

variable {clock : Nat} {run : UpRun ι addr clock}

/-- The invariant of `run_up` holds in the whole run. -/
theorem up_inv_state (run : UpRun ι addr clock) (n : Nat) : (run.state n).Inv addr :=
  run.always (P := Up.Inv addr) (.start addr clock) (fun _ h hnext => h.step hnext) n

/-- What is left does not change, so that the phase stays, but for the mount. -/
theorem phase_of_still {n : Nat} {phase : UpPhase ι} (hphase : (run.state n).phase = phase)
    (hnot : ∀ m, phase ≠ .mounted m)
    (hstill : ∀ k ≥ n, ¬ (run.state (k + 1)).phase.left ≠ (run.state k).phase.left) :
    ∀ k ≥ n, (run.state k).phase = phase := by
  refine run.always_from (P := fun s => s.phase = phase) hphase fun k hk heq hnext => ?_
  rcases hnext.phase_cases (up_inv_state run k).paced with ⟨hsame, -⟩ | ⟨m, -, hm, -⟩ | ⟨hne, -⟩
  · exact hsame.trans heq
  · exact absurd (heq.symm.trans hm) (hnot m)
  · exact absurd hne (hstill k hk)

/-- So does the mount, if it does not come to its end. -/
theorem mounted_of_still {n : Nat} {m : Mount ι} (hphase : (run.state n).phase = .mounted m)
    (hstill : ∀ k ≥ n, ¬ (run.state (k + 1)).phase.left ≠ (run.state k).phase.left) :
    ∀ k ≥ n, ∃ m, (run.state k).phase = .mounted m := by
  refine run.always_from (P := fun s => ∃ m, s.phase = .mounted m) ⟨m, hphase⟩
    fun k hk ⟨m, hm⟩ hnext => ?_
  rcases hnext.phase_cases (up_inv_state run k).paced with
    ⟨hsame, -⟩ | ⟨m, m', -, hm', -⟩ | ⟨hne, -⟩
  · exact ⟨m, hsame.trans hm⟩
  · exact ⟨m', hm'⟩
  · exact absurd hne (hstill k hk)

/-- With no step to come, there is one that can be taken, but for a mount that is not ended. -/
theorem can_go_again (hfair : UpFair run) {n : Nat}
    (hleft : ¬ ∃ result, (run.state n).phase = .returned result)
    (hmount : ∃ k ≥ n, ∀ m, (run.state k).phase = .mounted m → m.main.Ended)
    (hstill : ∀ k ≥ n, ¬ (run.state (k + 1)).phase.left ≠ (run.state k).phase.left) :
    ∃ k ≥ n, (run.state k).CanGo := by
  cases hphase : (run.state n).phase with
  | sleeping wake =>
    -- the time comes, and time does not go back
    obtain ⟨j, hj⟩ := hfair.time wake
    refine ⟨max n j, Nat.le_max_left n j, ?_⟩
    unfold Up.CanGo
    rw [phase_of_still hphase nofun hstill _ (Nat.le_max_left n j)]
    exact run.always_from (P := fun s => wake ≤ s.clock) hj
      (fun k _ hle hnext => Nat.le_trans hle hnext.clock_mono) _ (Nat.le_max_right n j)
  | mounted m =>
    obtain ⟨k, hk, hended⟩ := hmount
    obtain ⟨m', hm'⟩ := mounted_of_still hphase hstill k hk
    refine ⟨k, hk, ?_⟩
    unfold Up.CanGo
    rw [hm']
    exact hended m' hm'
  | reaping result =>
    obtain ⟨k, hk, hexited⟩ := hfair.exits n result hphase
    refine ⟨k, hk, ?_⟩
    unfold Up.CanGo
    rw [phase_of_still hphase nofun hstill k hk]
    exact hexited
  | returned result => exact absurd ⟨result, hphase⟩ hleft
  | launching | creating | asking | preparing =>
    exact ⟨n, Nat.le_refl n, by unfold Up.CanGo; rw [hphase]; trivial⟩
  | checking e | timing e | stopping r | killing r =>
    exact ⟨n, Nat.le_refl n, by unfold Up.CanGo; rw [hphase]; trivial⟩

/-- It returns if the mount is over again and again. -/
theorem returns_of_ended (hfair : UpFair run)
    (hmount : ∀ n, ∃ k ≥ n, ∀ m, (run.state k).phase = .mounted m → m.main.Ended) (n : Nat) :
    ∃ k ≥ n, ∃ result, (run.state k).phase = .returned result := by
  refine run.eventually_of_fair (Up.Inv addr) (fun s => ∃ result, s.phase = .returned result)
    hfair.main Up.remaining (fun s hne => hne rfl) (up_inv_state run n)
    (fun n _ _ hleft hstill => can_go_again hfair hleft (hmount n) hstill)
    fun n _ hinv _ hnext => .inr ⟨hinv.step hnext, ?_, fun hmoves => ?_⟩
  · rcases hnext.phase_cases hinv.paced with ⟨-, hsame⟩ | ⟨m, m', -, -, hsame⟩ | ⟨-, hless⟩
    · exact Nat.le_of_eq hsame
    · exact Nat.le_of_eq hsame
    · exact Nat.le_of_lt hless
  · rcases hnext.phase_cases hinv.paced with ⟨hsame, -⟩ | ⟨m, m', hm, hm', -⟩ | ⟨-, hless⟩
    · exact absurd (congrArg UpPhase.left hsame) hmoves
    · rw [hm, hm'] at hmoves
      exact absurd rfl hmoves
    · exact hless

/-- Otherwise the mount is up for ever. -/
theorem ended_or_up (run : UpRun ι addr clock) :
    (∀ n, ∃ k ≥ n, ∀ m, (run.state k).phase = .mounted m → m.main.Ended) ∨
      ∃ n, ∀ k ≥ n, ∃ m, (run.state k).phase = .mounted m ∧ ¬ m.main.Ended := by
  by_cases hmounted : ∃ n, ∀ k ≥ n, ∃ m, (run.state k).phase = .mounted m ∧ ¬ m.main.Ended
  · exact .inr hmounted
  · refine .inl fun n => ?_
    by_contra hnone
    refine hmounted ⟨n, fun k hk => ?_⟩
    by_contra hnot
    refine hnone ⟨k, hk, fun m hm => ?_⟩
    by_contra hended
    exact hnot ⟨m, hm, hended⟩

/-- **`netfilum up` comes to its end.**  If it goes on whenever it can, time passes, and a
    killed process exits, then it returns, unless the mount is up for ever. -/
theorem returns_or_mounted (addr : String) (clock : Nat) (run : UpRun ι addr clock)
    (hfair : UpFair run) :
    (∃ n result, (run.state n).phase = .returned result) ∨
      ∃ n, ∀ k ≥ n, ∃ m, (run.state k).phase = .mounted m ∧ ¬ m.main.Ended := by
  refine (ended_or_up run).imp_left fun hmount => ?_
  obtain ⟨n, -, result, hreturned⟩ := returns_of_ended hfair hmount 0
  exact ⟨n, result, hreturned⟩

/-- A run is fair that has returned, with the process gone, and in which time goes on. -/
theorem fair_of_returned {n : Nat}
    (hend : ∀ k ≥ n, (∃ result, (run.state k).phase = .returned result) ∧
      ∃ status, (run.state k).child = .exited status)
    (htime : ∀ t, ∃ k, t ≤ (run.state k).clock) : UpFair run where
  main hagain := by
    obtain ⟨k, hk, hgo⟩ := hagain n
    obtain ⟨⟨result, hphase⟩, -⟩ := hend k hk
    unfold Up.CanGo at hgo
    rw [hphase] at hgo
    exact hgo.elim
  time := htime
  exits k _ _ := ⟨max k n, Nat.le_max_left k n, (hend _ (Nat.le_max_right k n)).2⟩

end

/-- The server cannot be reached when it is asked, the time to wait passes, and the process is
    killed. -/
def givingUp : Nat → Up Unit → Up Unit
  | 0, s => Up.goes { s with child := .running } .creating
  | 1, s => Up.goes { s with begun := s.clock } .asking
  | 2, s => (s.record (.asked (.error .eof))).goes (.checking .eof)
  | 3, s => s.goes (.timing .eof)
  | 4, s => { s with clock := serverReadyTimeout }
  | 5, s => s.goes (.stopping (.error (timeoutMessage "[::1]:4000" .eof)))
  | 6, s => s.goes (.killing (.error (timeoutMessage "[::1]:4000" .eof)))
  | 7, s => (s.record .killed).goes (.reaping (.error (timeoutMessage "[::1]:4000" .eof)))
  | 8, s => Up.record { s with child := .exited "exit code: 1" } (.exited "exit code: 1")
  | 9, s => s.goes (.returned (.error (timeoutMessage "[::1]:4000" .eof)))
  | _, s => { s with clock := s.clock + 1 }

/-- The first states of this run. -/
def givenUpAt : Nat → Up Unit
  | 0     => .start 0
  | n + 1 => givingUp n (givenUpAt n)

/-- Then time goes on. -/
def givenUp : UpRun Unit "[::1]:4000" 0 where
  state := givenUpAt
  initial := rfl
  next
    | 0      => .inr (.spawned rfl)
    | 1      => .inr (.created rfl)
    | 2      => .inr (.refused .eof rfl)
    | 3      => .inr (.alive rfl rfl)
    | 4      => .inr (.passes serverReadyTimeout (Nat.zero_le _))
    | 5      => .inr (.timedOut rfl (Nat.le_refl _))
    | 6      => .inr (.stops rfl rfl)
    | 7      => .inr (.kills rfl)
    | 8      => .inr (.exits "exit code: 1" rfl)
    | 9      => .inr (.reaps rfl rfl)
    | _ + 10 => .inr (.passes _ (Nat.le_succ _))

/-- When the process is gone the run has ended, and time passes. -/
theorem givenUp_ends (n : Nat) :
    (givenUpAt (n + 10)).phase = .returned (.error (timeoutMessage "[::1]:4000" .eof)) ∧
      (givenUpAt (n + 10)).child = .exited "exit code: 1" ∧
      n ≤ (givenUpAt (n + 10)).clock := by
  induction n with
  | zero => exact ⟨rfl, rfl, Nat.zero_le _⟩
  | succ n ih => exact ⟨ih.1, ih.2.1, Nat.succ_le_succ ih.2.2⟩

/-- The run is fair. -/
theorem givenUp_fair : UpFair givenUp := by
  refine fair_of_returned (n := 10) (fun k hk => ?_) fun t => ⟨t + 10, (givenUp_ends t).2.2⟩
  obtain ⟨n, rfl⟩ := Nat.exists_eq_add_of_le' hk
  exact ⟨⟨_, (givenUp_ends n).1⟩, _, (givenUp_ends n).2.1⟩

/-- The server never answers, and `run_up` returns. -/
theorem returns_or_mounted_givenUp :
    (∃ n result, (givenUp.state n).phase = .returned result) ∨
      ∃ n, ∀ k ≥ n, ∃ m, (givenUp.state k).phase = .mounted m ∧ ¬ m.main.Ended :=
  returns_or_mounted _ _ givenUp givenUp_fair

end Netfilum
