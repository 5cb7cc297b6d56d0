import Mathlib.Data.Fintype.Order
import Mathlib.Data.Nat.Init
import Mathlib.Tactic.ByContra

namespace Temporal

/-!
# Runs that never end

A run is an infinite sequence of states, each reached from the one before by a step, or the
same as it: the system may pause, and a run that comes to a halt pauses for ever.

* `Run.always`, `Run.always_from` — the invariant rule, from the start or from any time on.
* `Run.eventually` — the progress rule: what moves again and again, and with each move
  comes closer to its goal, reaches it.
* `Run.Fair`, `Run.eventually_of_fair` — the same for what is done again and again if it can be
  done again and again.
* `Run.Fair.part` — fairness to a part of the system.
* `Run.eventually_all` — finitely many goals that are reached for good are reached together.
-/

variable {α : Type*}

/-- A run from an initial state. -/
structure Run (step : α → α → Prop) (init : α) where
  state   : Nat → α
  initial : state 0 = init
  next    : ∀ n, state (n + 1) = state n ∨ step (state n) (state (n + 1))

namespace Run

variable {step : α → α → Prop} {init : α} (run : Run step init)

/-- What holds once and is kept by every later step holds from then on. -/
theorem always_from {P : α → Prop} {m : Nat} (hm : P (run.state m))
    (hstep : ∀ n ≥ m, P (run.state n) → step (run.state n) (run.state (n + 1)) →
      P (run.state (n + 1))) : ∀ n ≥ m, P (run.state n) := by
  intro n hn
  induction n, hn using Nat.le_induction with
  | base => exact hm
  | succ n hn ih =>
    rcases run.next n with hpause | hnext
    · rw [hpause]
      exact ih
    · exact hstep n hn ih hnext

/-- What holds at first and is kept by every step of the run holds in all of its states. -/
theorem always {P : α → Prop} (hinit : P init)
    (hstep : ∀ n, P (run.state n) → step (run.state n) (run.state (n + 1)) →
      P (run.state (n + 1))) (n : Nat) : P (run.state n) := by
  have hzero : P (run.state 0) := by
    rw [run.initial]
    exact hinit
  exact run.always_from hzero (fun n _ => hstep n) n (Nat.zero_le n)

/-- A goal is reached if, as long as it is not, `P` is kept, one more move is always to
    come, no step is away from the goal, and every move is towards it. -/
theorem eventually (P goal : α → Prop) (moves : α → α → Prop) (rank : α → Nat)
    (hirrefl : ∀ s, ¬ moves s s) {m : Nat} (hm : P (run.state m))
    (hmove : ∀ n ≥ m, P (run.state n) → ¬ goal (run.state n) →
      ∃ k ≥ n, moves (run.state k) (run.state (k + 1)))
    (hstep : ∀ n ≥ m, P (run.state n) → ¬ goal (run.state n) →
      step (run.state n) (run.state (n + 1)) →
      goal (run.state (n + 1)) ∨ P (run.state (n + 1)) ∧
        rank (run.state (n + 1)) ≤ rank (run.state n) ∧
        (moves (run.state n) (run.state (n + 1)) →
          rank (run.state (n + 1)) < rank (run.state n))) :
    ∃ n ≥ m, goal (run.state n) := by
  by_contra hnever
  have hfar : ∀ n ≥ m, ¬ goal (run.state n) := fun n hn h => hnever ⟨n, hn, h⟩
  -- with the goal out of reach, `P` holds and the rank only sinks
  have hkeeps : ∀ n ≥ m, P (run.state n) := by
    refine run.always_from hm ?_
    intro n hn hP hnext
    exact ((hstep n hn hP (hfar n hn) hnext).resolve_left
      (hfar (n + 1) (Nat.le_succ_of_le hn))).1
  have hsinks : ∀ k ≥ m, ∀ n ≥ k, rank (run.state n) ≤ rank (run.state k) := by
    intro k hk
    refine run.always_from (P := fun s => rank s ≤ rank (run.state k)) (Nat.le_refl _) ?_
    intro n hn hle hnext
    have hn' := Nat.le_trans hk hn
    exact Nat.le_trans ((hstep n hn' (hkeeps n hn') (hfar n hn') hnext).resolve_left
      (hfar (n + 1) (Nat.le_succ_of_le hn'))).2.1 hle
  -- and there is always a move that makes it sink
  have hnone : ∀ r, ∀ n ≥ m, rank (run.state n) ≠ r := by
    intro r
    induction r using Nat.strongRecOn with
    | ind r ih =>
      rintro n hn rfl
      obtain ⟨k, hk, hmoves⟩ := hmove n hn (hkeeps n hn) (hfar n hn)
      have hk' := Nat.le_trans hn hk
      have hnext : step (run.state k) (run.state (k + 1)) := by
        refine (run.next k).resolve_left (fun hpause => ?_)
        rw [hpause] at hmoves
        exact hirrefl _ hmoves
      have hlt := ((hstep k hk' (hkeeps k hk') (hfar k hk') hnext).resolve_left
        (hfar (k + 1) (Nat.le_succ_of_le hk'))).2.2 hmoves
      exact ih _ (Nat.lt_of_lt_of_le hlt (hsinks n hn k hk)) (k + 1)
        (Nat.le_succ_of_le hk') rfl
  exact hnone _ m (Nat.le_refl m) rfl

/-- What can be done again and again is done again and again. -/
def Fair (enabled : α → Prop) (moves : α → α → Prop) : Prop :=
  (∀ n, ∃ k ≥ n, enabled (run.state k)) → ∀ n, ∃ k ≥ n, moves (run.state k) (run.state (k + 1))

/-- The progress rule under fairness: it is enough that a move is possible again after any time
    from which on there is none. -/
theorem eventually_of_fair (P goal : α → Prop) {enabled : α → Prop} {moves : α → α → Prop}
    (hfair : run.Fair enabled moves) (rank : α → Nat) (hirrefl : ∀ s, ¬ moves s s) {m : Nat}
    (hm : P (run.state m))
    (henabled : ∀ n ≥ m, P (run.state n) → ¬ goal (run.state n) →
      (∀ k ≥ n, ¬ moves (run.state k) (run.state (k + 1))) → ∃ k ≥ n, enabled (run.state k))
    (hstep : ∀ n ≥ m, P (run.state n) → ¬ goal (run.state n) →
      step (run.state n) (run.state (n + 1)) →
      goal (run.state (n + 1)) ∨ P (run.state (n + 1)) ∧
        rank (run.state (n + 1)) ≤ rank (run.state n) ∧
        (moves (run.state n) (run.state (n + 1)) →
          rank (run.state (n + 1)) < rank (run.state n))) :
    ∃ n ≥ m, goal (run.state n) := by
  by_contra hnever
  have hfar : ∀ n ≥ m, ¬ goal (run.state n) := fun n hn h => hnever ⟨n, hn, h⟩
  have hkeeps : ∀ n ≥ m, P (run.state n) := run.always_from hm fun n hn hP hnext =>
    ((hstep n hn hP (hfar n hn) hnext).resolve_left (hfar (n + 1) (Nat.le_succ_of_le hn))).1
  refine hnever (run.eventually P goal moves rank hirrefl hm (fun n hn _ _ => ?_) hstep)
  -- without a move from here on one would be possible again and again
  by_contra hnone
  have hstill : ∀ k ≥ n, ¬ moves (run.state k) (run.state (k + 1)) := fun k hk h =>
    hnone ⟨k, hk, h⟩
  refine hnone (hfair (fun i => ?_) n)
  have hle := Nat.le_trans hn (Nat.le_max_right i n)
  obtain ⟨k, hk, h⟩ := henabled (max i n) hle (hkeeps _ hle) (hfar _ hle) fun k hk =>
    hstill k (Nat.le_trans (Nat.le_max_right i n) hk)
  exact ⟨k, Nat.le_trans (Nat.le_max_left i n) hk, h⟩

/-- What does not change in any step stays as it is. -/
theorem eq_of_still {β : Type*} (f : α → β) {n : Nat}
    (hstill : ∀ k ≥ n, ¬ f (run.state (k + 1)) ≠ f (run.state k)) :
    ∀ k ≥ n, f (run.state k) = f (run.state n) := by
  intro k hk
  induction k, hk using Nat.le_induction with
  | base => rfl
  | succ k hk ih => exact (not_not.mp (hstill k hk)).trans ih

/-- What holds of finitely many from some time on holds of all of them at one time. -/
theorem eventually_all {κ : Type*} [Finite κ] {P : κ → α → Prop} {m : Nat}
    (h : ∀ i, ∃ n ≥ m, ∀ k ≥ n, P i (run.state k)) : ∃ n ≥ m, ∀ i, P i (run.state n) := by
  choose n hn hP using h
  obtain ⟨last, hlast⟩ := Finite.exists_le n
  exact ⟨max last m, Nat.le_max_right _ _, fun i =>
    hP i _ (Nat.le_trans (hlast i) (Nat.le_max_left _ _))⟩

/-- What is fair to a part of the system, while it is up, is fair to a run of that part. -/
theorem Fair.part {β : Type*} {step' : β → β → Prop} {init' : β} (part : Run step' init')
    {f : α → β} {up : α → Prop} {start : Nat} {enabled : β → Prop} {moves : β → β → Prop}
    (hstate : ∀ k, part.state k = f (run.state (start + k)))
    (hup : ∀ k ≥ start, up (run.state k))
    (h : run.Fair (fun s => up s ∧ enabled (f s)) fun s s' => moves (f s) (f s')) :
    part.Fair enabled moves := by
  intro hagain n
  have hagain' : ∀ n, ∃ k ≥ n, up (run.state k) ∧ enabled (f (run.state k)) := fun n => by
    obtain ⟨k, hk, henabled⟩ := hagain n
    refine ⟨start + k, Nat.le_add_left_of_le hk, hup _ (Nat.le_add_right start k), ?_⟩
    rw [← hstate]
    exact henabled
  obtain ⟨k, hk, hmoves⟩ := h hagain' (start + n)
  obtain ⟨j, rfl⟩ := Nat.exists_eq_add_of_le (Nat.le_of_add_right_le hk)
  refine ⟨j, Nat.le_of_add_le_add_left hk, ?_⟩
  rw [hstate, hstate]
  exact hmoves

end Run

end Temporal
