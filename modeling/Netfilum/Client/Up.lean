import Netfilum.Client.Mount
import Netfilum.Protocol

namespace Netfilum

open History Rust
open scoped List

/-!
# Launching, waiting, mounting and stopping

`run_up` of `crates/netfilum-client/src/mount.rs`: it starts `wsl.exe`, asks the server until it
answers, runs the mount, and stops the process whatever has come of it.  The process may exit at
any time, the clock goes on by itself, and the server answers what it likes.

* `UpPhase`, `Up`, `UpStep` — how far it has got; the mount is the one of `MountStep`.
* `Paced` — the server is asked every 200 ms at most, for 45 s.
* `Accounts` — what makes `run_up` return what it returns.
* `Up.Inv`, `sound_of_launched` — what holds in all runs.
-/

/-- The process of `wsl.exe`. -/
inductive Child where
  | absent
  | running
  | exited (status : String)
  deriving DecidableEq

/-- How far `run_up` has got. -/
inductive UpPhase (ι : Type) where
  /-- In `spawn_wsl_server`. -/
  | launching
  /-- In `RpcClient::new`. -/
  | creating
  /-- In `client.send(&Request::GetVolumeInfo)`. -/
  | asking
  /-- The request has failed; `child.try_wait()` is to be called. -/
  | checking (error : IoError)
  /-- `Instant::now()` is to be compared with the deadline. -/
  | timing (error : IoError)
  | sleeping (wake : Nat)
  /-- In `run_mount`, before its host has started. -/
  | preparing
  | mounted (mount : Mount ι)
  /-- In `stop_wsl_server`, with the result that `run_up` will return. -/
  | stopping (result : Except String Unit)
  | killing (result : Except String Unit)
  | reaping (result : Except String Unit)
  | returned (result : Except String Unit)

/-- What the history records. -/
inductive UpEvent (ι : Type) where
  /-- A request has been answered, or has failed. -/
  | asked (answer : Except IoError Response)
  | exited (status : String)
  /-- `try_wait` or `wait` has failed. -/
  | fault (error : IoError)
  /-- `run_mount` has returned, after the mount has come to this end. -/
  | unmounted (mount : Mount ι)
  /-- `child.kill()`. -/
  | killed

/-- The process, the clock in milliseconds, when the client began to wait, and how far
    `run_up` has got. -/
structure Up (ι : Type) where
  child   : Child
  clock   : Nat
  begun   : Nat
  phase   : UpPhase ι
  history : List (UpEvent ι)

/-- `SERVER_READY_TIMEOUT`. -/
def serverReadyTimeout : Nat := 45000

/-- `SHUTDOWN_POLL`. -/
def shutdownPoll : Nat := 200

/-- The errors of `wait_for_server`. -/
def unexpectedMessage : String := "unexpected response while waiting for RPC server"

@[inherit_doc unexpectedMessage]
def exitedMessage (status : String) : String :=
  "WSL server exited before becoming ready: " ++ status

@[inherit_doc unexpectedMessage]
def timeoutMessage (addr : String) (error : IoError) : String :=
  "timed out waiting for RPC server at " ++ addr ++ ": " ++ error.message

variable {ι : Type}

namespace Up

/-- Nothing has been started. -/
def start (clock : Nat) : Up ι where
  child := .absent
  clock
  begun := clock
  phase := .launching
  history := []

/-- Something is recorded. -/
def record (s : Up ι) (event : UpEvent ι) : Up ι := { s with history := s.history ++ [event] }

/-- `run_up` goes on. -/
def goes (s : Up ι) (phase : UpPhase ι) : Up ι := { s with phase }

end Up

/-- One step of `run_up`, of the process or of the clock. -/
inductive UpStep [DecidableEq ι] (addr : String) : Up ι → Up ι → Prop
  /-- Time passes. -/
  | passes {s} (clock : Nat) (hlater : s.clock ≤ clock) : UpStep addr s { s with clock }
  /-- The process exits. -/
  | exits {s} (status : String) (hrunning : s.child = .running) :
    UpStep addr s (Up.record { s with child := .exited status } (.exited status))
  | spawned {s} (hphase : s.phase = .launching) :
    UpStep addr s (Up.goes { s with child := .running } .creating)
  /-- `spawn_wsl_server` fails, and there is nothing to stop. -/
  | spawnFails {s} (error : String) (hphase : s.phase = .launching) :
    UpStep addr s (s.goes (.returned (.error error)))
  /-- The client is there, and the time to wait begins. -/
  | created {s} (hphase : s.phase = .creating) :
    UpStep addr s (Up.goes { s with begun := s.clock } .asking)
  | createFails {s} (error : IoError) (hphase : s.phase = .creating) :
    UpStep addr s (s.goes (.stopping (.error error.message)))
  /-- The server is ready. -/
  | answered {s} (info : VolumeInfoData) (hphase : s.phase = .asking) :
    UpStep addr s ((s.record (.asked (.ok (.volumeInfo info)))).goes .preparing)
  | unexpected {s} (response : Response) (hphase : s.phase = .asking)
    (hother : ∀ info, response ≠ .volumeInfo info) :
    UpStep addr s
      ((s.record (.asked (.ok response))).goes (.stopping (.error unexpectedMessage)))
  /-- The request fails. -/
  | refused {s} (error : IoError) (hphase : s.phase = .asking) :
    UpStep addr s ((s.record (.asked (.error error))).goes (.checking error))
  /-- `try_wait` finds that the process has exited, -/
  | gone {s status error} (hphase : s.phase = .checking error)
    (hexited : s.child = .exited status) :
    UpStep addr s (s.goes (.stopping (.error (exitedMessage status))))
  /-- or that it runs, -/
  | alive {s error} (hphase : s.phase = .checking error) (hrunning : s.child = .running) :
    UpStep addr s (s.goes (.timing error))
  /-- or fails. -/
  | checkFails {s error} (fault : IoError) (hphase : s.phase = .checking error) :
    UpStep addr s ((s.record (.fault fault)).goes (.stopping (.error fault.message)))
  | timedOut {s error} (hphase : s.phase = .timing error)
    (hlate : s.begun + serverReadyTimeout ≤ s.clock) :
    UpStep addr s (s.goes (.stopping (.error (timeoutMessage addr error))))
  | waits {s error} (hphase : s.phase = .timing error)
    (hearly : s.clock < s.begun + serverReadyTimeout) :
    UpStep addr s (s.goes (.sleeping (s.clock + shutdownPoll)))
  | wakes {s wake} (hphase : s.phase = .sleeping wake) (hlate : wake ≤ s.clock) :
    UpStep addr s (s.goes .asking)
  /-- The host of the mount has started. -/
  | prepared {s} (hphase : s.phase = .preparing) : UpStep addr s (s.goes (.mounted .start))
  | prepareFails {s} (error : String) (hphase : s.phase = .preparing) :
    UpStep addr s (s.goes (.stopping (.error error)))
  /-- A step of the mount. -/
  | mounts {s m m'} (hphase : s.phase = .mounted m) (hstep : MountStep addr m m') :
    UpStep addr s (s.goes (.mounted m'))
  | mountReturns {s m reason} (hphase : s.phase = .mounted m)
    (hmain : m.main = .returned reason) :
    UpStep addr s ((s.record (.unmounted m)).goes (.stopping (.ok ())))
  | mountFails {s m} (error : String) (hphase : s.phase = .mounted m) (hmain : m.main = .failed) :
    UpStep addr s (s.goes (.stopping (.error error)))
  /-- `stop_wsl_server` finds that the process has exited, -/
  | stopped {s status result} (hphase : s.phase = .stopping result)
    (hexited : s.child = .exited status) : UpStep addr s (s.goes (.returned result))
  /-- or cannot tell, and leaves it, -/
  | stopFails {s result} (fault : IoError) (hphase : s.phase = .stopping result) :
    UpStep addr s ((s.record (.fault fault)).goes (.returned result))
  /-- or that it runs. -/
  | stops {s result} (hphase : s.phase = .stopping result) (hrunning : s.child = .running) :
    UpStep addr s (s.goes (.killing result))
  /-- Whether the process can be killed or not, it is waited for. -/
  | kills {s result} (hphase : s.phase = .killing result) :
    UpStep addr s ((s.record .killed).goes (.reaping result))
  | reaps {s status result} (hphase : s.phase = .reaping result)
    (hexited : s.child = .exited status) : UpStep addr s (s.goes (.returned result))
  | reapFails {s result} (fault : IoError) (hphase : s.phase = .reaping result) :
    UpStep addr s ((s.record (.fault fault)).goes (.returned result))

/-- The states that the runs of `run_up` reach. -/
abbrev Launched [DecidableEq ι] (addr : String) (clock : Nat) : Up ι → Prop :=
  Relation.ReflTransGen (UpStep addr) (.start clock)

/-! ### What has been asked -/

def UpEvent.answer : UpEvent ι → Option (Except IoError Response)
  | .asked answer => some answer
  | _             => none

/-- What the server has answered, request by request. -/
def asks (history : List (UpEvent ι)) : List (Except IoError Response) :=
  history.filterMap UpEvent.answer

/-- One more event, and an answer if it is one. -/
theorem asks_concat (history : List (UpEvent ι)) (event : UpEvent ι) :
    asks (history ++ [event]) = asks history ++ event.answer.toList := by
  unfold asks
  rw [List.filterMap_append]
  cases event <;> rfl

/-- Between two requests there are 200 ms, and no request begins behind the deadline but one. -/
def Paced (begun clock : Nat) (answers : List (Except IoError Response)) : UpPhase ι → Prop
  | .launching | .creating => answers = []
  | .asking => answers.length * shutdownPoll ≤ serverReadyTimeout ∧
    begun + answers.length * shutdownPoll ≤ clock
  | .checking error | .timing error =>
    answers.length * shutdownPoll ≤ serverReadyTimeout + shutdownPoll ∧
      begun + answers.length * shutdownPoll ≤ clock + shutdownPoll ∧
      answers.getLast? = some (.error error)
  | .sleeping wake => answers.length * shutdownPoll ≤ serverReadyTimeout ∧
    begun + answers.length * shutdownPoll ≤ wake
  | _ => answers.length * shutdownPoll ≤ serverReadyTimeout + shutdownPoll

/-- What the run so far has asked, in its time. -/
def Up.Paced (s : Up ι) : Prop := Netfilum.Paced s.begun s.clock (asks s.history) s.phase

section

variable [DecidableEq ι] {addr : String} {s s' : Up ι} {begun clock clock' : Nat}
  {answers : List (Except IoError Response)} {phase : UpPhase ι}

omit [DecidableEq ι] in
/-- The pace bounds the number of answers. -/
theorem Paced.bound (h : Paced begun clock answers phase) :
    answers.length * shutdownPoll ≤ serverReadyTimeout + shutdownPoll := by
  cases phase <;> simp only [Paced] at h <;> grind

omit [DecidableEq ι] in
/-- The pace is kept while time passes. -/
theorem Paced.passes (h : Paced begun clock answers phase) (hlater : clock ≤ clock') :
    Paced begun clock' answers phase := by
  cases phase <;> simp only [Paced] at h ⊢ <;> grind

omit [DecidableEq ι] in
/-- One more request has been answered. -/
theorem Paced.asked (h : Paced begun clock answers (.asking : UpPhase ι))
    (answer : Except IoError Response) :
    (answers ++ [answer]).length * shutdownPoll ≤ serverReadyTimeout + shutdownPoll ∧
      begun + (answers ++ [answer]).length * shutdownPoll ≤ clock + shutdownPoll := by
  obtain ⟨hfew, hclock⟩ := h
  rw [List.length_append, List.length_singleton, Nat.add_mul, Nat.one_mul]
  omega

/-- Every step keeps the pace. -/
theorem Up.Paced.step (h : s.Paced) (hstep : UpStep addr s s') : s'.Paced := by
  unfold Up.Paced at h ⊢
  cases hstep with
  | passes clock hlater => exact h.passes hlater
  | exits status hrunning =>
    rw [Up.record, asks_concat]
    exact (List.append_nil _).symm ▸ h
  | created hphase =>
    rw [hphase] at h
    have hnone : asks s.history = [] := h
    show (asks s.history).length * _ ≤ _ ∧ s.clock + (asks s.history).length * _ ≤ s.clock
    rw [hnone]
    exact ⟨Nat.zero_le _, Nat.le_of_eq (Nat.add_zero _)⟩
  | answered info hphase =>
    rw [hphase] at h
    rw [Up.goes, Up.record, asks_concat]
    exact (h.asked _).1
  | unexpected response hphase hother =>
    rw [hphase] at h
    rw [Up.goes, Up.record, asks_concat]
    exact (h.asked _).1
  | refused error hphase =>
    rw [hphase] at h
    rw [Up.goes, Up.record, asks_concat]
    exact ⟨(h.asked _).1, (h.asked _).2, List.getLast?_concat⟩
  | alive hphase hrunning =>
    rw [hphase] at h
    exact h
  | waits hphase hearly =>
    rw [hphase] at h
    obtain ⟨-, hclock, -⟩ := h
    refine ⟨?_, hclock⟩
    -- the time to wait is a whole number of polls
    show (asks s.history).length * 200 ≤ 45000
    have hclock : s.begun + (asks s.history).length * 200 ≤ s.clock + 200 := hclock
    have hearly : s.clock < s.begun + 45000 := hearly
    omega
  | wakes hphase hlate =>
    rw [hphase] at h
    exact ⟨h.1, Nat.le_trans h.2 hlate⟩
  | spawned hphase =>
    rw [hphase] at h
    exact h
  | checkFails fault hphase | stopFails fault hphase | reapFails fault hphase | kills hphase =>
    rw [Up.goes, Up.record, asks_concat]
    exact (List.append_nil _).symm ▸ h.bound
  | mountReturns hphase hmain =>
    rw [Up.goes, Up.record, asks_concat]
    exact (List.append_nil _).symm ▸ h.bound
  | _ => exact h.bound

/-! ### What comes of it -/

/-- The result, once there is one. -/
def UpPhase.result : UpPhase ι → Option (Except String Unit)
  | .stopping result | .killing result | .reaping result | .returned result => some result
  | _ => none

/-- What makes `run_up` return a result. -/
inductive Accounts (addr : String) (s : Up ι) : Except String Unit → Prop
  /-- The process could not be started, or the client not be made. -/
  | unasked (error : String) (hnone : asks s.history = []) : Accounts addr s (.error error)
  | unexpected {response : Response}
    (hlast : (asks s.history).getLast? = some (.ok response))
    (hother : ∀ info, response ≠ .volumeInfo info) :
    Accounts addr s (.error unexpectedMessage)
  | exited {status : String} {error : IoError} (hexited : .exited status ∈ s.history)
    (hlast : (asks s.history).getLast? = some (.error error)) :
    Accounts addr s (.error (exitedMessage status))
  | fault {fault error : IoError} (hfault : .fault fault ∈ s.history)
    (hlast : (asks s.history).getLast? = some (.error error)) :
    Accounts addr s (.error fault.message)
  | timedOut {error : IoError} (hlast : (asks s.history).getLast? = some (.error error))
    (hlate : s.begun + serverReadyTimeout ≤ s.clock) :
    Accounts addr s (.error (timeoutMessage addr error))
  /-- The server was ready, and `run_mount` failed. -/
  | mount {info : VolumeInfoData} (error : String)
    (hlast : (asks s.history).getLast? = some (.ok (.volumeInfo info))) :
    Accounts addr s (.error error)
  /-- The server was ready, and the mount came to its end. -/
  | mounted {info : VolumeInfoData} {m : Mount ι} {reason : ShutdownReason}
    (hlast : (asks s.history).getLast? = some (.ok (.volumeInfo info)))
    (hmem : .unmounted m ∈ s.history) (hmounted : Mounted addr m)
    (hmain : m.main = .returned reason) : Accounts addr s (.ok ())

/-- What accounts for a result does so for good. -/
theorem Accounts.mono {result : Except String Unit} (h : Accounts addr s result)
    (hasks : asks s'.history = asks s.history) (hhistory : s.history ⊆ s'.history)
    (hbegun : s'.begun = s.begun) (hclock : s.clock ≤ s'.clock) : Accounts addr s' result := by
  cases h with
  | unasked error hnone => exact .unasked error (hasks.trans hnone)
  | unexpected hlast hother => exact .unexpected (hasks ▸ hlast) hother
  | exited hexited hlast => exact .exited (hhistory hexited) (hasks ▸ hlast)
  | fault hfault hlast => exact .fault (hhistory hfault) (hasks ▸ hlast)
  | timedOut hlast hlate =>
    exact .timedOut (hasks ▸ hlast) (hbegun.symm ▸ Nat.le_trans hlate hclock)
  | mount error hlast => exact .mount error (hasks ▸ hlast)
  | mounted hlast hmem hmounted hmain =>
    exact .mounted (hasks ▸ hlast) (hhistory hmem) hmounted hmain

/-- `run_mount` is under way. -/
def UpPhase.Mounting : UpPhase ι → Prop
  | .preparing | .mounted _ => True
  | _                       => False

/-- The server has answered, and its answer was the last. -/
structure Ready (addr : String) (s : Up ι) : Prop where
  answered : s.phase.Mounting →
    ∃ info, (asks s.history).getLast? = some (.ok (.volumeInfo info))
  mounted  : ∀ m, s.phase = .mounted m → Mounted addr m

/-- Nothing is mounted before the server has answered. -/
theorem Ready.step (h : Ready addr s) (hstep : UpStep addr s s') : Ready addr s' := by
  have hready := h.answered
  cases hstep with
  | passes clock hlater => exact ⟨h.answered, h.mounted⟩
  | exits status hrunning =>
    refine ⟨fun hphase => ?_, h.mounted⟩
    rw [Up.record, asks_concat]
    exact (List.append_nil _).symm ▸ h.answered hphase
  | answered info hphase =>
    refine ⟨fun _ => ⟨info, ?_⟩, nofun⟩
    rw [Up.goes, Up.record, asks_concat]
    exact List.getLast?_concat
  | prepared hphase =>
    rw [hphase] at hready
    refine ⟨hready, fun m hm => ?_⟩
    cases hm
    exact .refl
  | mounts hphase hstep =>
    rw [hphase] at hready
    refine ⟨hready, fun m hm => ?_⟩
    cases hm
    exact (h.mounted _ hphase).tail hstep
  | _ => exact ⟨False.elim, nofun⟩

/-- Whatever is decided is accounted for. -/
theorem accounts_step (hpaced : s.Paced) (hready : Ready addr s)
    (hchild : ∀ status, s.child = .exited status → .exited status ∈ s.history)
    (h : ∀ result, s.phase.result = some result → Accounts addr s result)
    (hstep : UpStep addr s s') :
    ∀ result, s'.phase.result = some result → Accounts addr s' result := by
  have hanswered := hready.answered
  unfold Up.Paced at hpaced
  have hsame : ∀ {event : UpEvent ι}, event.answer = none →
      asks (s.history ++ [event]) = asks s.history := fun hnone => by
    rw [asks_concat, hnone]
    exact List.append_nil _
  intro result hresult
  cases hstep with
  | passes clock hlater => exact (h result hresult).mono rfl (List.Subset.refl _) rfl hlater
  | exits status hrunning =>
    exact (h result hresult).mono (hsame rfl) (List.subset_append_left _ _) rfl (Nat.le_refl _)
  | spawnFails error hphase =>
    rw [hphase] at hpaced
    cases hresult
    exact .unasked error hpaced
  | createFails error hphase =>
    rw [hphase] at hpaced
    cases hresult
    exact .unasked error.message hpaced
  | unexpected response hphase hother =>
    cases hresult
    exact .unexpected ((congrArg List.getLast? (asks_concat _ _)).trans List.getLast?_concat) hother
  | gone hphase hexited =>
    rw [hphase] at hpaced
    cases hresult
    exact .exited (hchild _ hexited) hpaced.2.2
  | checkFails fault hphase =>
    rw [hphase] at hpaced
    cases hresult
    exact .fault List.mem_concat_self ((congrArg List.getLast? (hsame rfl)).trans hpaced.2.2)
  | timedOut hphase hlate =>
    rw [hphase] at hpaced
    cases hresult
    exact .timedOut hpaced.2.2 hlate
  | prepareFails error hphase =>
    rw [hphase] at hanswered
    cases hresult
    obtain ⟨info, hlast⟩ := hanswered trivial
    exact .mount error hlast
  | mountReturns hphase hmain =>
    rw [hphase] at hanswered
    cases hresult
    obtain ⟨info, hlast⟩ := hanswered trivial
    exact .mounted ((congrArg List.getLast? (hsame rfl)).trans hlast) List.mem_concat_self
      (hready.mounted _ hphase) hmain
  | mountFails error hphase hmain =>
    rw [hphase] at hanswered
    cases hresult
    obtain ⟨info, hlast⟩ := hanswered trivial
    exact .mount error hlast
  -- the process is stopped, and the result stays
  | stopped hphase hexited | stops hphase hrunning | reaps hphase hexited =>
    rw [hphase] at h
    exact (h result hresult).mono rfl (List.Subset.refl _) rfl (Nat.le_refl _)
  | stopFails fault hphase | reapFails fault hphase =>
    rw [hphase] at h
    exact (h result hresult).mono (hsame rfl) (List.subset_append_left _ _) rfl (Nat.le_refl _)
  | kills hphase =>
    rw [hphase] at h
    exact (h result hresult).mono (hsame rfl) (List.subset_append_left _ _) rfl (Nat.le_refl _)
  | _ => cases hresult

/-! ### The process -/

/-- The process is left alone until the result is there. -/
def UpPhase.Over : UpPhase ι → Prop
  | .reaping _ | .returned _ => True
  | _                        => False

/-- What `run_up` knows of the process. -/
structure Supervised (s : Up ι) : Prop where
  exited : ∀ status, .exited status ∈ s.history ↔ s.child = .exited status
  absent : s.phase = .launching → s.child = .absent
  killed : .killed ∈ s.history → s.phase.Over
  left   : ∀ result, s.phase = .returned result → s.child ≠ .running ∨ ∃ e, .fault e ∈ s.history

omit [DecidableEq ι] in
/-- An event that is no exit of the process. -/
theorem Supervised.record (h : Supervised s) {event : UpEvent ι} (phase : UpPhase ι)
    (hexited : ∀ status, event ≠ .exited status) (hlaunching : phase ≠ .launching)
    (hkilled : event = .killed ∨ s.phase.Over → phase.Over)
    (hleft : ∀ result, phase = .returned result → s.child ≠ .running ∨ ∃ e, event = .fault e) :
    Supervised ((s.record event).goes phase) where
  exited status := by
    refine Iff.trans ⟨fun hmem => ?_, List.mem_append_left _⟩ (h.exited status)
    exact (List.mem_append.mp hmem).resolve_right fun hlast =>
      hexited status (List.mem_singleton.mp hlast).symm
  absent hphase := absurd hphase hlaunching
  killed hmem := hkilled <| (List.mem_append.mp hmem).symm.imp
    (fun hlast => (List.mem_singleton.mp hlast).symm) h.killed
  left result hphase := (hleft result hphase).imp_right fun ⟨e, heq⟩ =>
    ⟨e, heq ▸ List.mem_concat_self⟩

omit [DecidableEq ι] in
/-- `run_up` goes on, and nothing is recorded. -/
theorem Supervised.goes (h : Supervised s) (phase : UpPhase ι) (hlaunching : phase ≠ .launching)
    (hkilled : s.phase.Over → phase.Over)
    (hleft : ∀ result, phase = .returned result → s.child ≠ .running) :
    Supervised (s.goes phase) where
  exited := h.exited
  absent hphase := absurd hphase hlaunching
  killed hmem := hkilled (h.killed hmem)
  left result hphase := .inl (hleft result hphase)

/-- Every step keeps what is known of the process. -/
theorem Supervised.step (h : Supervised s) (hstep : UpStep addr s s') : Supervised s' := by
  have hnot : ∀ {phase phase' : UpPhase ι}, s.phase = phase → ¬ phase.Over →
      s.phase.Over → phase'.Over := by
    rintro phase phase' rfl hno hover
    exact absurd hover hno
  cases hstep with
  | passes clock hlater => exact ⟨h.exited, h.absent, h.killed, h.left⟩
  | exits status hrunning =>
    refine ⟨fun status' => ?_, fun hphase => ?_, fun hmem => ?_, fun _ _ => .inl nofun⟩
    · -- it had not exited before
      have hnone : .exited status' ∉ s.history := fun hmem => by
        have hexited := (h.exited status').mp hmem
        rw [hrunning] at hexited
        cases hexited
      show .exited status' ∈ s.history ++ [.exited status] ↔
        Child.exited status = .exited status'
      simp only [List.mem_append, hnone, List.mem_singleton, false_or, UpEvent.exited.injEq,
        Child.exited.injEq, eq_comm]
    · have habsent := h.absent hphase
      rw [hrunning] at habsent
      cases habsent
    · exact h.killed ((List.mem_append.mp hmem).resolve_right (by simp))
  | spawned hphase =>
    have habsent := h.absent hphase
    refine ⟨fun status => iff_of_false (fun hmem => ?_) nofun, nofun, fun hmem => ?_, nofun⟩
    · have hexited := (h.exited status).mp hmem
      rw [habsent] at hexited
      cases hexited
    · exact hnot hphase id (h.killed hmem)
  | spawnFails error hphase =>
    refine h.goes _ nofun (fun _ => trivial) fun _ _ => ?_
    rw [h.absent hphase]
    nofun
  | created hphase => exact ⟨h.exited, nofun, fun hmem => hnot hphase id (h.killed hmem), nofun⟩
  | createFails error hphase => exact h.goes _ nofun (hnot hphase id) nofun
  | answered info hphase =>
    exact h.record _ nofun nofun (fun hover => hnot hphase id (hover.resolve_left nofun)) nofun
  | unexpected response hphase hother =>
    exact h.record _ nofun nofun (fun hover => hnot hphase id (hover.resolve_left nofun)) nofun
  | refused error hphase =>
    exact h.record _ nofun nofun (fun hover => hnot hphase id (hover.resolve_left nofun)) nofun
  | gone hphase hexited => exact h.goes _ nofun (hnot hphase id) nofun
  | alive hphase hrunning => exact h.goes _ nofun (hnot hphase id) nofun
  | checkFails fault hphase =>
    exact h.record _ nofun nofun (fun hover => hnot hphase id (hover.resolve_left nofun)) nofun
  | timedOut hphase hlate => exact h.goes _ nofun (hnot hphase id) nofun
  | waits hphase hearly => exact h.goes _ nofun (hnot hphase id) nofun
  | wakes hphase hlate => exact h.goes _ nofun (hnot hphase id) nofun
  | prepared hphase => exact h.goes _ nofun (hnot hphase id) nofun
  | prepareFails error hphase => exact h.goes _ nofun (hnot hphase id) nofun
  | mounts hphase hstep => exact h.goes _ nofun (hnot hphase id) nofun
  | mountReturns hphase hmain =>
    exact h.record _ nofun nofun (fun hover => hnot hphase id (hover.resolve_left nofun)) nofun
  | mountFails error hphase hmain => exact h.goes _ nofun (hnot hphase id) nofun
  | stopped hphase hexited | reaps hphase hexited =>
    refine h.goes _ nofun (fun _ => trivial) fun _ _ => ?_
    rw [hexited]
    nofun
  | stopFails fault hphase | reapFails fault hphase =>
    exact h.record _ nofun nofun (fun _ => trivial) fun _ _ => .inr ⟨fault, rfl⟩
  | stops hphase hrunning => exact h.goes _ nofun (hnot hphase id) nofun
  | kills hphase => exact h.record _ nofun nofun (fun _ => trivial) nofun

/-- The server may be asked once more. -/
def UpPhase.Asks : UpPhase ι → Prop
  | .timing _ | .sleeping _ | .asking => True
  | _                                 => False

/-- An exit of the process is noticed after one more request. -/
structure Noticed (s : Up ι) : Prop where
  once  : s.phase.Asks → ∀ status answer, ¬ [.exited status, .asked answer] <+ s.history
  twice : ∀ status answer answer',
    ¬ [.exited status, .asked answer, .asked answer'] <+ s.history

omit [DecidableEq ι] in
/-- An event that is no answer of the server. -/
theorem Noticed.record (h : Noticed s) {event : UpEvent ι} (phase : UpPhase ι)
    (hanswer : event.answer = none) (hasks : phase.Asks → s.phase.Asks) :
    Noticed ((s.record event).goes phase) where
  once hphase status answer hsub := by
    rcases pair_concat.mp hsub with hold | ⟨hlast, -⟩
    · exact h.once (hasks hphase) status answer hold
    · rw [← hlast] at hanswer
      cases hanswer
  twice status answer answer' hsub := by
    have hsub : [UpEvent.exited status, .asked answer] ++ [.asked answer']
      <+ s.history ++ [event] := hsub
    rcases concat_sublist_concat.mp hsub with hold | ⟨hlast, -⟩
    · exact h.twice status answer answer' hold
    · rw [← hlast] at hanswer
      cases hanswer

omit [DecidableEq ι] in
/-- An answer of the server, after which it is not asked at once. -/
theorem Noticed.asked (h : Noticed s) (hphase : s.phase = .asking)
    (answer : Except IoError Response) {phase : UpPhase ι} (hasks : ¬ phase.Asks) :
    Noticed ((s.record (.asked answer)).goes phase) where
  once hphase := absurd hphase hasks
  twice status answer' answer'' hsub := by
    have hsub : [UpEvent.exited status, .asked answer'] ++ [.asked answer'']
      <+ s.history ++ [.asked answer] := hsub
    rcases concat_sublist_concat.mp hsub with hold | ⟨-, hold⟩
    · exact h.twice status answer' answer'' hold
    · exact h.once (hphase ▸ trivial) status answer' hold

/-- After the process has exited the server is asked once at most. -/
theorem Noticed.step (h : Noticed s) (hpaced : s.Paced) (hwatched : Supervised s)
    (hstep : UpStep addr s s') : Noticed s' := by
  have honce := h.once
  unfold Up.Paced at hpaced
  cases hstep with
  | exits status hrunning =>
    have hrecord : Noticed ((s.record (.exited status)).goes s.phase) := h.record _ rfl id
    exact ⟨hrecord.once, hrecord.twice⟩
  | created hphase =>
    rw [hphase] at hpaced
    refine ⟨fun _ status answer hsub => ?_, h.twice⟩
    -- nothing has been asked
    have hmem : answer ∈ asks s.history :=
      List.mem_filterMap.mpr ⟨.asked answer, hsub.subset (by simp), rfl⟩
    rw [show asks s.history = [] from hpaced] at hmem
    cases hmem
  | alive hphase hrunning =>
    refine ⟨fun _ status answer hsub => ?_, h.twice⟩
    -- nothing has exited
    have hexited := (hwatched.exited status).mp (hsub.subset (by simp))
    rw [hrunning] at hexited
    cases hexited
  | waits hphase hearly | wakes hphase hlate =>
    rw [hphase] at honce
    exact ⟨fun _ => honce trivial, h.twice⟩
  | answered info hphase => exact h.asked hphase _ id
  | unexpected response hphase hother => exact h.asked hphase _ id
  | refused error hphase => exact h.asked hphase _ id
  | checkFails fault hphase | stopFails fault hphase | reapFails fault hphase =>
    exact h.record _ rfl False.elim
  | mountReturns hphase hmain => exact h.record _ rfl False.elim
  | kills hphase => exact h.record _ rfl False.elim
  | passes clock hlater => exact ⟨h.once, h.twice⟩
  | _ => exact ⟨False.elim, h.twice⟩

/-! ### All runs -/

/-- The invariant of all runs. -/
structure Up.Inv (addr : String) (s : Up ι) : Prop where
  paced    : s.Paced
  ready    : Ready addr s
  accounts : ∀ result, s.phase.result = some result → Accounts addr s result
  watched  : Supervised s
  noticed  : Noticed s

/-- At the start the invariant holds. -/
theorem Up.Inv.start (addr : String) (clock : Nat) : Up.Inv addr (.start clock : Up ι) where
  paced := rfl
  ready := ⟨False.elim, nofun⟩
  accounts := nofun
  watched := ⟨fun _ => iff_of_false List.not_mem_nil nofun, fun _ => rfl,
    fun hmem => absurd hmem List.not_mem_nil, nofun⟩
  noticed := ⟨False.elim, fun _ _ _ hsub => absurd (hsub.subset List.mem_cons_self)
    List.not_mem_nil⟩

/-- Every step keeps the invariant. -/
theorem Up.Inv.step (h : s.Inv addr) (hstep : UpStep addr s s') : s'.Inv addr where
  paced := h.paced.step hstep
  ready := h.ready.step hstep
  accounts := accounts_step h.paced h.ready (fun status => (h.watched.exited status).mpr)
    h.accounts hstep
  watched := h.watched.step hstep
  noticed := h.noticed.step h.paced h.watched hstep

/-- The invariant holds in every run. -/
theorem Up.Inv.of_launched {clock : Nat} (hrun : Launched addr clock s) : s.Inv addr := by
  induction hrun with
  | refl => exact .start addr clock
  | tail _ hstep ih => exact ih.step hstep

/-- What holds in all runs of `run_up`. -/
structure Up.Sound (addr : String) (s : Up ι) : Prop where
  /-- `wait_for_server` asks 226 times at most, -/
  asked    : (asks s.history).length ≤ 226
  /-- and once at most after the process has exited. -/
  noticed  : ∀ status answer answer',
    ¬ [.exited status, .asked answer, .asked answer'] <+ s.history
  /-- It is mounted when the server has answered as it should, and asked no more. -/
  ready    : s.phase.Mounting →
    ∃ info, (asks s.history).getLast? = some (.ok (.volumeInfo info))
  mounted  : ∀ m, s.phase = .mounted m → Mounted addr m
  /-- The process is killed when the result is there, -/
  spared   : .killed ∈ s.history → ∃ result, s.phase.result = some result
  /-- which has its reason; -/
  accounts : ∀ result, s.phase.result = some result → Accounts addr s result
  /-- and when `run_up` returns, no process is left that the system has not failed to tell of. -/
  left     : ∀ result, s.phase = .returned result →
    s.child ≠ .running ∨ ∃ e, .fault e ∈ s.history

/-- **`netfilum up` cleans up after itself.**  In every run, whatever the server answers and
    whenever the process exits: `wait_for_server` asks until it is answered, and 226 times at most;
    the mount begins after that; the process is killed when everything else is over, and none is
    left; and the result is the one of what has happened. -/
theorem sound_of_launched (addr : String) (clock : Nat) (s : Up ι)
    (hrun : Launched addr clock s) : s.Sound addr := by
  have h := Up.Inv.of_launched hrun
  refine ⟨?_, h.noticed.twice, h.ready.answered, h.ready.mounted, fun hmem => ?_, h.accounts,
    h.watched.left⟩
  · have hbound : (asks s.history).length * 200 ≤ 45000 + 200 := h.paced.bound
    omega
  · have hover := h.watched.killed hmem
    cases hphase : s.phase with
    | reaping result => exact ⟨result, rfl⟩
    | returned result => exact ⟨result, rfl⟩
    | _ => rw [hphase] at hover; exact hover.elim

/-- The server answers the second request, a callback is made, Ctrl+C ends the mount, and the
    process, which still runs, is killed. -/
theorem sound_of_launched_killed : ∃ s : Up Unit, Launched "[::1]:4000" 0 s ∧
    s.phase = .returned (.ok ()) ∧ .killed ∈ s.history ∧ (asks s.history).length = 2 ∧
    s.Sound "[::1]:4000" := by
  obtain ⟨s, hphase, hkilled, hasks, hrun⟩ : ∃ s : Up Unit, s.phase = .returned (.ok ()) ∧
      .killed ∈ s.history ∧ (asks s.history).length = 2 ∧ Launched "[::1]:4000" 0 s :=
    ⟨_, rfl, by simp [Up.record, Up.goes], rfl,
      ((((((((((((((((((((((((Relation.ReflTransGen.refl.tail (.spawned rfl)).tail
      (.created rfl)).tail
      (.refused ⟨.connectionRefused, "connection refused"⟩ rfl)).tail
      (.alive rfl rfl)).tail
      (.waits rfl (by decide))).tail
      (.passes 200 (by decide))).tail
      (.wakes rfl (by decide))).tail
      (.answered ⟨1000, 500, "r"⟩ rfl)).tail
      (.prepared rfl)).tail
      (.mounts rfl (.ready rfl))).tail
      (.mounts rfl (.begins () rfl rfl))).tail
      (.mounts rfl (.answered () rfl))).tail
      (.mounts rfl (.interrupt (by decide) (by decide)))).tail
      (.mounts rfl (.wake rfl rfl))).tail
      (.mounts rfl (.decide rfl rfl))).tail
      (.mounts rfl (.unmount rfl))).tail
      (.mounts rfl (.ends (.ok ()) rfl))).tail
      (.mounts rfl (.ignores rfl rfl))).tail
      (.mounts rfl (.stop rfl fun _ => rfl))).tail
      (.mounts rfl (.join rfl rfl))).tail
      (.mountReturns rfl rfl)).tail
      (.stops rfl rfl)).tail
      (.kills rfl)).tail
      (.exits "signal: 9 (SIGKILL)" rfl)).tail
      (.reaps rfl rfl)⟩
  exact ⟨s, hrun, hphase, hkilled, hasks, sound_of_launched _ _ s hrun⟩

end

end Netfilum
