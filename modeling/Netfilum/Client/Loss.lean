import Netfilum.Client.Cleanup
import Netfilum.Client.Shutdown

namespace Netfilum

open Rust Temporal

/-!
# A lost server ends `netfilum up`

The threads of the mount and `run_up` around them: what makes the mount come to its end makes
`run_up` return.

* `UpStep.mounted_cases` — what a step of `run_up` is to the mount.
* `mountRun` — a mount that is up for ever has a run of its own;  `ThreadsFair` — what is fair to
  its threads.
* `returns_of_loss` — a loss that anybody notices, and Ctrl+C, end everything.
-/

variable {ι : Type} [DecidableEq ι] {addr : String} {clock : Nat} {s s' : Up ι} {m : Mount ι}
  {run : UpRun ι addr clock}

omit [DecidableEq ι] in
/-- The mount, while it is up. -/
def UpPhase.mount : UpPhase ι → Mount ι
  | .mounted m => m
  | _          => .start

/-- The mount is up. -/
def Up.IsMounted (s : Up ι) : Prop := ∃ m, s.phase = .mounted m

/-- What the threads of the mount can do again and again, while it is up, they do. -/
structure ThreadsFair (run : UpRun ι addr clock) : Prop where
  main   : run.Fair (fun s => s.IsMounted ∧ s.phase.mount.MainCanGo) fun s s' =>
    s'.phase.mount.main ≠ s.phase.mount.main
  thread : ∀ who, run.Fair (fun s => s.IsMounted ∧ s.phase.mount.CanGo who) fun s s' =>
    s'.phase.mount.thread who ≠ s.phase.mount.thread who

/-! ### What a step does to the mount -/

/-- The mount has just begun, or it has been up, and has taken a step at most. -/
theorem UpStep.mounted_cases (hstep : UpStep addr s s') (hphase : s'.phase = .mounted m) :
    s.phase = .preparing ∧ m = .start ∨
      ∃ before, s.phase = .mounted before ∧ (m = before ∨ MountStep addr before m) := by
  cases hstep with
  | passes clock hlater => exact .inr ⟨m, hphase, .inl rfl⟩
  | exits status hrunning => exact .inr ⟨m, hphase, .inl rfl⟩
  | prepared hprepared =>
    cases hphase
    exact .inl ⟨hprepared, rfl⟩
  | mounts hbefore hstep =>
    cases hphase
    exact .inr ⟨_, hbefore, .inr hstep⟩
  | _ => cases hphase

/-- Once the result is there, it stays. -/
theorem UpStep.over_mono (hstep : UpStep addr s s') (hover : s.phase.result ≠ none) :
    s'.phase.result ≠ none := by
  have hnot : ∀ {phase : UpPhase ι}, s.phase = phase → phase.result = none → False := by
    rintro phase rfl hnone
    exact hover hnone
  cases hstep with
  | passes clock hlater => exact hover
  | exits status hrunning => exact hover
  | spawned hphase | created hphase | prepared hphase => exact (hnot hphase rfl).elim
  | answered info hphase => exact (hnot hphase rfl).elim
  | refused error hphase => exact (hnot hphase rfl).elim
  | alive hphase h | waits hphase h | wakes hphase h | mounts hphase h =>
    exact (hnot hphase rfl).elim
  | _ => exact nofun

/-- A mount that is up stays up, or the result is there. -/
theorem UpStep.mounted_or_over (hstep : UpStep addr s s') (hup : s.IsMounted) :
    s'.IsMounted ∨ s'.phase.result ≠ none := by
  obtain ⟨m, hm⟩ := hup
  have hnot : ∀ {phase : UpPhase ι}, s.phase = phase → (∀ m, phase ≠ .mounted m) → False := by
    rintro phase rfl hno
    exact hno m hm
  cases hstep with
  | passes clock hlater => exact .inl ⟨m, hm⟩
  | exits status hrunning => exact .inl ⟨m, hm⟩
  | spawned hphase | created hphase | prepared hphase => exact (hnot hphase nofun).elim
  | answered info hphase => exact (hnot hphase nofun).elim
  | refused error hphase => exact (hnot hphase nofun).elim
  | alive hphase h | waits hphase h | wakes hphase h => exact (hnot hphase nofun).elim
  | mounts hphase h => exact .inl ⟨_, rfl⟩
  | _ => exact .inr nofun

/-! ### The run of the mount -/

/-- A mount that is up has been up since it began. -/
theorem mounted_since (run : UpRun ι addr clock) {n : Nat} (hup : (run.state n).IsMounted) :
    ∃ start ≤ n, (run.state start).phase = .mounted .start ∧
      ∀ k, start ≤ k → k ≤ n → (run.state k).IsMounted := by
  induction n with
  | zero =>
    obtain ⟨m, hm⟩ := hup
    rw [run.initial] at hm
    cases hm
  | succ n ih =>
    obtain ⟨m, hm⟩ := hup
    -- either it begins here, or it was up before
    have hbefore : (run.state (n + 1)).phase = .mounted .start ∨ (run.state n).IsMounted := by
      rcases run.next n with hpause | hnext
      · exact .inr ⟨m, hpause ▸ hm⟩
      · rcases hnext.mounted_cases hm with ⟨-, rfl⟩ | ⟨before, hbefore, -⟩
        · exact .inl hm
        · exact .inr ⟨before, hbefore⟩
    rcases hbefore with hstart | hup
    · refine ⟨n + 1, Nat.le_refl _, hstart, fun k hk hk' => ?_⟩
      rw [Nat.le_antisymm hk' hk]
      exact ⟨_, hstart⟩
    · obtain ⟨start, hle, hstart, hbetween⟩ := ih hup
      refine ⟨start, Nat.le_succ_of_le hle, hstart, fun k hk hk' => ?_⟩
      rcases Nat.lt_or_eq_of_le hk' with hlt | rfl
      · exact hbetween k hk (Nat.le_of_lt_succ hlt)
      · exact ⟨m, hm⟩

/-- The run of a mount that is up for ever. -/
def mountRun (run : UpRun ι addr clock) {start : Nat}
    (hstart : (run.state start).phase = .mounted .start)
    (hup : ∀ k ≥ start, (run.state k).IsMounted) : MountRun ι addr where
  state k := (run.state (start + k)).phase.mount
  initial := congrArg UpPhase.mount hstart
  next k := by
    obtain ⟨m, hm⟩ := hup (start + k) (Nat.le_add_right start k)
    obtain ⟨m', hm'⟩ := hup (start + (k + 1)) (Nat.le_add_right start _)
    rw [hm, hm']
    rcases run.next (start + k) with hpause | hnext
    · exact .inl (congrArg UpPhase.mount (hm'.symm.trans ((congrArg Up.phase hpause).trans hm)))
    · rcases hnext.mounted_cases hm' with ⟨hprep, -⟩ | ⟨before, hbefore, hstep⟩
      · rw [hm] at hprep
        cases hprep
      · rw [hm] at hbefore
        cases hbefore
        exact hstep

/-- A fair run of `run_up` is a fair run of its mount. -/
theorem fair_mountRun (hfair : ThreadsFair run) {start : Nat}
    (hstart : (run.state start).phase = .mounted .start)
    (hup : ∀ k ≥ start, (run.state k).IsMounted) : MountFair (mountRun run hstart hup) where
  main := Run.Fair.part run _ (fun _ => rfl) hup hfair.main
  thread who := Run.Fair.part run _ (fun _ => rfl) hup (hfair.thread who)

/-- A mount whose flag is set, or that has a thread which has noticed a loss, is not up for
    ever. -/
theorem ended_of_alarm [Finite ι] (hthreads : ThreadsFair run) {n : Nat}
    (hphase : (run.state n).phase = .mounted m)
    (halarm : m.shared.stop = true ∨ ∃ who, (m.thread who).Alarmed)
    (hup : ∀ k ≥ n, (run.state k).IsMounted) :
    ∀ last, ∃ k ≥ last, ∃ m, (run.state k).phase = .mounted m ∧ m.main.Ended := by
  intro last
  obtain ⟨start, hle, hstart, hbetween⟩ := mounted_since run ⟨m, hphase⟩
  have hall : ∀ k ≥ start, (run.state k).IsMounted := fun k hk =>
    (Nat.le_total k n).elim (hbetween k hk) (hup k)
  have hfair := fair_mountRun hthreads hstart hall
  obtain ⟨i, rfl⟩ := Nat.exists_eq_add_of_le hle
  have hi : (mountRun run hstart hall).state i = m := congrArg UpPhase.mount hphase
  obtain ⟨j, -, hstop⟩ : ∃ j ≥ i, ((mountRun run hstart hall).state j).shared.stop = true := by
    rw [← hi] at halarm
    rcases halarm with hstop | ⟨who, halarmed⟩
    · exact ⟨i, Nat.le_refl i, hstop⟩
    · exact stop_of_alarmed hfair halarmed
  -- the flag stays set
  have hlate := (mountRun run hstart hall).always_from (P := fun s => s.shared.stop = true) hstop
    (fun _ _ hstop hnext => hnext.stop_mono hstop) (max j last) (Nat.le_max_left j last)
  obtain ⟨k, hk, hend⟩ := ends_of_stop hfair hlate
  have hk' := Nat.le_trans (Nat.le_max_right j last) hk
  obtain ⟨m', hm'⟩ := hall (start + k) (Nat.le_add_right start k)
  refine ⟨start + k, Nat.le_add_left_of_le hk', m', hm', ?_⟩
  have hmain : m'.main.remaining = 0 := by
    rw [← hend]
    exact congrArg (fun phase : UpPhase ι => phase.mount.main.remaining) hm'.symm
  cases hmain' : m'.main with
  | failed => exact .inl rfl
  | returned reason => exact .inr ⟨reason, rfl⟩
  | mounting | polling | leaving | unmounting reason | stopping reason | joining reason =>
    rw [hmain'] at hmain
    cases hmain

/-- **A lost server ends `netfilum up`.**  If the flag of the mount is set, by Ctrl+C or after a
    report, or if a thread has noticed that the server is lost, then `run_up` returns, and no
    process is left that the system has not failed to tell of. -/
theorem returns_of_loss [Finite ι] (addr : String) (clock : Nat) (run : UpRun ι addr clock)
    (hfair : UpFair run) (hthreads : ThreadsFair run) (n : Nat) (m : Mount ι)
    (hphase : (run.state n).phase = .mounted m)
    (halarm : m.shared.stop = true ∨ ∃ who, (m.thread who).Alarmed) :
    ∃ k ≥ n, ∃ result, (run.state k).phase = .returned result ∧
      ((run.state k).child ≠ .running ∨ ∃ e, .fault e ∈ (run.state k).history) := by
  have hmount : ∀ n, ∃ k ≥ n, ∀ m, (run.state k).phase = .mounted m → m.main.Ended := by
    refine (ended_or_up run).resolve_right ?_
    rintro ⟨last, hlast⟩
    -- between the alarm and the time from which on it is up for ever it is up as well
    have hup : ∀ k ≥ n, (run.state k).IsMounted := by
      have hafter := run.always_from
        (P := fun s => s.IsMounted ∨ s.phase.result ≠ none) (.inl ⟨m, hphase⟩)
        fun _ _ hor hnext => hor.elim hnext.mounted_or_over
          fun hover => .inr (hnext.over_mono hover)
      refine fun k hk => (hafter k hk).resolve_right fun hover => ?_
      have hlate := run.always_from (P := fun s => s.phase.result ≠ none) hover
        (fun _ _ hover hnext => hnext.over_mono hover) (max k last) (Nat.le_max_left k last)
      obtain ⟨m', hm', -⟩ := hlast (max k last) (Nat.le_max_right k last)
      rw [hm'] at hlate
      exact hlate rfl
    obtain ⟨k, hk, m', hm', hended⟩ := ended_of_alarm hthreads hphase halarm hup last
    obtain ⟨m'', hm'', hnot⟩ := hlast k hk
    rw [hm'] at hm''
    cases hm''
    exact hnot hended
  obtain ⟨k, hk, result, hreturned⟩ := returns_of_ended hfair hmount n
  exact ⟨k, hk, result, hreturned, (up_inv_state run k).watched.left result hreturned⟩

/-- The server has answered when it was asked for the first time. -/
def answeredOnce : UpEvent Unit := .asked (.ok (.volumeInfo ⟨0, 0, "r"⟩))

/-- The server answers, and is mounted until it closes the connection of the monitor. -/
def lostAt : Nat → Up Unit
  | 0      => .start 0
  | 1      => ⟨.running, 0, 0, .creating, []⟩
  | 2      => ⟨.running, 0, 0, .asking, []⟩
  | 3      => ⟨.running, 0, 0, .preparing, [answeredOnce]⟩
  | 16     => ⟨.running, 0, 0, .stopping (.ok ()), [answeredOnce, .unmounted (closedAt 11)]⟩
  | 17     => ⟨.running, 0, 0, .killing (.ok ()), [answeredOnce, .unmounted (closedAt 11)]⟩
  | 18     =>
    ⟨.running, 0, 0, .reaping (.ok ()), [answeredOnce, .unmounted (closedAt 11), .killed]⟩
  | 19     => ⟨.exited "exit code: 1", 0, 0, .reaping (.ok ()),
    [answeredOnce, .unmounted (closedAt 11), .killed, .exited "exit code: 1"]⟩
  | n + 20 => ⟨.exited "exit code: 1", n, 0, .returned (.ok ()),
    [answeredOnce, .unmounted (closedAt 11), .killed, .exited "exit code: 1"]⟩
  | n + 4  => ⟨.running, 0, 0, .mounted (closedAt n), [answeredOnce]⟩

/-- Then time goes on. -/
def lost : UpRun Unit "[::1]:4000" 0 where
  state := lostAt
  initial := rfl
  next
    | 0      => .inr (.spawned rfl)
    | 1      => .inr (.created rfl)
    | 2      => .inr (.answered _ rfl)
    | 3      => .inr (.prepared rfl)
    | 4      => .inr (.mounts rfl (.ready rfl))
    | 5      => .inr (.mounts rfl (.ends (.ok ()) rfl))
    | 6      => .inr (.mounts rfl (.reports rfl rfl))
    | 7      => .inr (.mounts rfl (.takes none rfl rfl))
    | 8      => .inr (.mounts rfl (.stores none rfl))
    | 9      => .inr (.mounts rfl (.wake rfl rfl))
    | 10     => .inr (.mounts rfl (.releases none rfl))
    | 11     => .inr (.mounts rfl (.decide rfl rfl))
    | 12     => .inr (.mounts rfl (.unmount rfl))
    | 13     => .inr (.mounts rfl (.stop rfl fun _ => rfl))
    | 14     => .inr (.mounts rfl (.join rfl rfl))
    | 15     => .inr (.mountReturns rfl rfl)
    | 16     => .inr (.stops rfl rfl)
    | 17     => .inr (.kills rfl)
    | 18     => .inr (.exits "exit code: 1" rfl)
    | 19     => .inr (.reaps rfl rfl)
    | _ + 20 => .inr (.passes _ (Nat.le_succ _))

/-- The monitor has noticed the loss after six steps. -/
theorem returns_of_loss_lost : ∃ k ≥ 6, ∃ result, (lost.state k).phase = .returned result ∧
    ((lost.state k).child ≠ .running ∨ ∃ e, .fault e ∈ (lost.state k).history) := by
  have hend : ∀ k ≥ 20, (∃ result, (lost.state k).phase = .returned result) ∧
      ∃ status, (lost.state k).child = .exited status := by
    intro k hk
    obtain ⟨n, rfl⟩ := Nat.exists_eq_add_of_le' hk
    exact ⟨⟨_, rfl⟩, _, rfl⟩
  have hover : ∀ {enabled : Up Unit → Prop} {moves : Up Unit → Up Unit → Prop},
      lost.Fair (fun s => s.IsMounted ∧ enabled s) moves := fun hagain => by
    obtain ⟨k, hk, ⟨m, hm⟩, -⟩ := hagain 20
    obtain ⟨⟨result, hphase⟩, -⟩ := hend k hk
    rw [hm] at hphase
    cases hphase
  exact returns_of_loss _ _ lost
    (fair_of_returned hend fun t => ⟨t + 20, Nat.le_refl t⟩) ⟨hover, fun _ => hover⟩ 6 _ rfl
    (.inr ⟨none, trivial⟩)

end Netfilum
