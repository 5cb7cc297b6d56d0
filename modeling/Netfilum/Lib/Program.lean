import Mathlib.Order.Defs.Unbundled

namespace Program

/-!
# Programs with a state and an error

Straight-line programs are written in `EStateM ε σ`: a state threaded through, and an
error that ends the program but keeps the state reached so far.  This file gives the
two primitive shapes a system call can have, the evaluation rules of sequencing, and
the rules for a relation between the state before and the state after:

* `observe` — a call that reads the state and may fail; `given` — one that does not
  even read it;
* `attempt` — a call that either takes effect or fails *and changes nothing*;
* `mapError` — the error conversion that a `map_err` performs;
* `Respects R x s` — running `x` from `s` ends in a state that `R` relates to `s`,
  whether `x` succeeds or fails.  `Respects.bind` is the rule that carries it through
  a sequence, for any reflexive and transitive `R`;
* `Quiet x` — `x` never changes the state;  `Preserves f x` — never what `f` sees of it;
  `Atomic x` — `x` changes nothing if it fails;
* `FailsWith P x s` — running `x` from `s` fails with an error that meets `P`, with one
  equivalence for each way to put programs together.
-/

variable {ε ε' σ α β : Type}

/-- The state a run ends in, whatever its outcome. -/
def final : EStateM.Result ε σ α → σ
  | .ok _ s    => s
  | .error _ s => s

/-- The outcome of a run, without its final state. -/
def outcome : EStateM.Result ε σ α → Except ε α
  | .ok a _    => .ok a
  | .error e _ => .error e

/-- The state that a success leaves. -/
@[simp] theorem final_ok (a : α) (s : σ) : final (.ok a s : EStateM.Result ε σ α) = s := rfl

/-- The state that an error leaves. -/
@[simp] theorem final_error (e : ε) (s : σ) :
    final (.error e s : EStateM.Result ε σ α) = s := rfl

/-- What a success returns. -/
@[simp] theorem outcome_ok (a : α) (s : σ) :
    outcome (.ok a s : EStateM.Result ε σ α) = .ok a := rfl

/-- What an error returns. -/
@[simp] theorem outcome_error (e : ε) (s : σ) :
    outcome (.error e s : EStateM.Result ε σ α) = .error e := rfl

/-- A run whose outcome is a result ends with it. -/
theorem eq_ok_of_outcome {r : EStateM.Result ε σ α} {a : α} (h : outcome r = .ok a) :
    r = .ok a (final r) := by
  cases r with
  | ok b s =>
    cases h
    rfl
  | error e s => cases h

/-- An outcome that is an error is the one of a failed run. -/
theorem eq_error_of_outcome {r : EStateM.Result ε σ α} {e : ε} (h : outcome r = .error e) :
    r = .error e (final r) := by
  cases r with
  | ok b s => cases h
  | error e' s =>
    cases h
    rfl

/-- A call that reads the state and may fail. -/
def observe (f : σ → Except ε α) : EStateM ε σ α := fun s =>
  match f s with
  | .ok a    => .ok a s
  | .error e => .error e s

/-- A result that does not depend on the state. -/
def given (x : Except ε α) : EStateM ε σ α := observe fun _ => x

/-- A call that takes effect, or fails and leaves the state as it was. -/
def attempt (f : σ → Except ε (α × σ)) : EStateM ε σ α := fun s =>
  match f s with
  | .ok (a, s') => .ok a s'
  | .error e    => .error e s

/-- Convert the error of a program, keeping its effect. -/
def mapError (g : ε → ε') (x : EStateM ε σ α) : EStateM ε' σ α := fun s =>
  match x s with
  | .ok a s'    => .ok a s'
  | .error e s' => .error (g e) s'

/-! ### Evaluation -/

/-- One program after another, on a state. -/
theorem bind_apply (x : EStateM ε σ α) (f : α → EStateM ε σ β) (s : σ) :
    (x >>= f) s = match x s with
      | .ok a s'    => f a s'
      | .error e s' => .error e s' := by
  show EStateM.bind x f s = _
  unfold EStateM.bind
  cases x s <;> rfl

/-- A value is returned, and the state stays. -/
@[simp] theorem pure_apply (a : α) (s : σ) : (pure a : EStateM ε σ α) s = .ok a s := rfl

/-- An error is thrown, and the state stays. -/
@[simp] theorem throw_apply (e : ε) (s : σ) :
    (throw e : EStateM ε σ α) s = .error e s := rfl

/-- A function of a result, on a state. -/
theorem map_apply (x : EStateM ε σ α) (f : α → β) (s : σ) :
    (f <$> x) s = match x s with
      | .ok a s'    => .ok (f a) s'
      | .error e s' => .error e s' := by
  show EStateM.map f x s = _
  unfold EStateM.map
  cases x s <;> rfl

/-- A function of the result does not change the state that is left. -/
@[simp] theorem final_map (x : EStateM ε σ α) (f : α → β) (s : σ) :
    final ((f <$> x) s) = final (x s) := by
  rw [map_apply]
  cases x s <;> rfl

/-- Returning a value changes nothing. -/
theorem final_then (x : EStateM ε σ α) (b : β) (s : σ) :
    final ((do let _ ← x; pure b) s) = final (x s) := by
  rw [bind_apply]
  cases x s <;> rfl

/-- A first step that succeeds hands over to the rest. -/
theorem bind_of_ok {x : EStateM ε σ α} {f : α → EStateM ε σ β} {s s' : σ} {a : α}
    (h : x s = .ok a s') : (x >>= f) s = f a s' := by
  rw [bind_apply, h]

/-- A first step that fails ends the program. -/
theorem bind_of_error {x : EStateM ε σ α} {f : α → EStateM ε σ β} {s s' : σ} {e : ε}
    (h : x s = .error e s') : (x >>= f) s = .error e s' := by
  rw [bind_apply, h]

/-- Inversion: a sequence that succeeds is two steps that succeed. -/
theorem bind_eq_ok {x : EStateM ε σ α} {f : α → EStateM ε σ β} {s s'' : σ} {b : β} :
    (x >>= f) s = .ok b s'' ↔ ∃ a s', x s = .ok a s' ∧ f a s' = .ok b s'' := by
  rw [bind_apply]
  cases hx : x s with
  | ok a s' =>
    constructor
    · intro h
      exact ⟨a, s', rfl, h⟩
    · rintro ⟨a, s', ⟨⟩, h⟩
      exact h
  | error e s' => simp

/-- Inversion: a mapped program that succeeds is a program that succeeds. -/
theorem map_eq_ok {x : EStateM ε σ α} {f : α → β} {s s' : σ} {b : β} :
    (f <$> x) s = .ok b s' ↔ ∃ a, x s = .ok a s' ∧ f a = b := by
  rw [map_apply]
  cases hx : x s with
  | ok a t =>
    constructor
    · rintro ⟨⟩
      exact ⟨a, rfl, rfl⟩
    · rintro ⟨a, ⟨⟩, rfl⟩
      rfl
  | error e t => simp

/-- What is found is returned, and nothing changes. -/
theorem observe_of_ok {f : σ → Except ε α} {s : σ} {a : α} (h : f s = .ok a) :
    observe f s = .ok a s := by
  unfold observe; rw [h]

/-- An error that is found is thrown, and nothing changes. -/
theorem observe_of_error {f : σ → Except ε α} {s : σ} {e : ε} (h : f s = .error e) :
    observe f s = .error e s := by
  unfold observe; rw [h]

/-- A value that is given is returned. -/
theorem given_of_ok {x : Except ε α} {a : α} (h : x = .ok a) (s : σ) :
    (given x : EStateM ε σ α) s = .ok a s :=
  observe_of_ok h

/-- An error that is given is thrown. -/
theorem given_of_error {x : Except ε α} {e : ε} (h : x = .error e) (s : σ) :
    (given x : EStateM ε σ α) s = .error e s :=
  observe_of_error h

/-- What succeeds changes the state. -/
theorem attempt_of_ok {f : σ → Except ε (α × σ)} {s s' : σ} {a : α} (h : f s = .ok (a, s')) :
    attempt f s = .ok a s' := by
  unfold attempt; rw [h]

/-- An attempt that fails leaves the state as it was. -/
theorem eq_of_attempt_error {f : σ → Except ε (α × σ)} {s s' : σ} {e : ε}
    (h : attempt f s = .error e s') : s' = s := by
  unfold attempt at h
  split at h
  · cases h
  · cases h
    rfl

/-- Looking at the state succeeds exactly where something is found, and changes nothing. -/
theorem observe_eq_ok {f : σ → Except ε α} {s s' : σ} {a : α} :
    observe f s = .ok a s' ↔ f s = .ok a ∧ s' = s := by
  unfold observe
  cases hf : f s with
  | ok b => simp [eq_comm]
  | error e => simp

/-- A given value is returned exactly where it is one. -/
theorem given_eq_ok {x : Except ε α} {s s' : σ} {a : α} :
    (given x : EStateM ε σ α) s = .ok a s' ↔ x = .ok a ∧ s' = s :=
  observe_eq_ok

/-- A change is made exactly where it succeeds. -/
theorem attempt_eq_ok {f : σ → Except ε (α × σ)} {s s' : σ} {a : α} :
    attempt f s = .ok a s' ↔ f s = .ok (a, s') := by
  unfold attempt
  cases hf : f s with
  | ok b => obtain ⟨b, t⟩ := b; simp
  | error e => simp

/-- Successes are those of the program whose errors are renamed. -/
theorem mapError_eq_ok {g : ε → ε'} {x : EStateM ε σ α} {s s' : σ} {a : α} :
    mapError g x s = .ok a s' ↔ x s = .ok a s' := by
  unfold mapError
  cases hx : x s <;> simp

/-- An error is renamed, and the state is the one that it left. -/
theorem mapError_of_error {g : ε → ε'} {x : EStateM ε σ α} {s s' : σ} {e : ε}
    (h : x s = .error e s') : mapError g x s = .error (g e) s' := by
  unfold mapError; rw [h]

/-! ### Results -/

/-- What is guarded against an error succeeds behind the guard. -/
theorem ite_error_eq_ok {c : Prop} [Decidable c] {e : ε} {x : Except ε α} {a : α} :
    (if c then .error e else x) = .ok a ↔ ¬ c ∧ x = .ok a := by
  by_cases h : c
  · rw [if_pos h]; simp [h]
  · rw [if_neg h]; simp [h]

/-- Two steps succeed exactly where both do. -/
theorem except_bind_eq_ok {x : Except ε α} {f : α → Except ε β} {b : β} :
    (x >>= f) = .ok b ↔ ∃ a, x = .ok a ∧ f a = .ok b := by
  cases x with
  | error e => exact iff_of_false (fun h => by cases h) (by simp)
  | ok a =>
    constructor
    · intro h
      exact ⟨a, rfl, h⟩
    · rintro ⟨a, ⟨⟩, h⟩
      exact h

/-- A function of a result succeeds exactly where this does. -/
theorem except_map_eq_ok {x : Except ε α} {f : α → β} {b : β} :
    x.map f = .ok b ↔ ∃ a, x = .ok a ∧ f a = b := by
  cases x <;> simp [Except.map]

/-- Successes are those of the result whose errors are renamed. -/
theorem except_mapError_eq_ok {x : Except ε α} {g : ε → ε'} {a : α} :
    x.mapError g = .ok a ↔ x = .ok a := by
  cases x with
  | ok b =>
    constructor <;> intro h <;> cases h <;> rfl
  | error e => exact iff_of_false (by rintro ⟨⟩) (by rintro ⟨⟩)

/-! ### How a program fails -/

/-- From `s`, the program fails with an error that meets `P`. -/
def FailsWith (P : ε → Prop) (x : EStateM ε σ α) (s : σ) : Prop :=
  ∃ e s', x s = .error e s' ∧ P e

section

variable {P : ε → Prop}

/-- Returning a value does not fail. -/
@[simp] theorem failsWith_pure (a : α) (s : σ) :
    FailsWith P (pure a : EStateM ε σ α) s ↔ False :=
  iff_false_intro fun ⟨_, _, h, _⟩ => by cases h

/-- Throwing fails with what is thrown. -/
@[simp] theorem failsWith_throw (e : ε) (s : σ) :
    FailsWith P (throw e : EStateM ε σ α) s ↔ P e := by
  constructor
  · rintro ⟨e', s', ⟨⟩, h⟩
    exact h
  · intro h
    exact ⟨e, s, rfl, h⟩

/-- What succeeds does not fail. -/
theorem failsWith_of_ok {x : EStateM ε σ α} {s s' : σ} {a : α} (h : x s = .ok a s') :
    ¬ FailsWith P x s := by
  rintro ⟨e, t, herr, -⟩
  rw [h] at herr
  cases herr

/-- What fails does so with its error. -/
theorem failsWith_of_error {x : EStateM ε σ α} {s s' : σ} {e : ε} (h : x s = .error e s') :
    FailsWith P x s ↔ P e := by
  constructor
  · rintro ⟨e', t, herr, hP⟩
    rw [h] at herr
    cases herr
    exact hP
  · intro hP
    exact ⟨e, s', h, hP⟩

/-- A function of the result fails where the program does. -/
@[simp] theorem failsWith_map (f : α → β) (x : EStateM ε σ α) (s : σ) :
    FailsWith P (f <$> x) s ↔ FailsWith P x s := by
  cases hx : x s with
  | ok a s' =>
    have hmap : (f <$> x) s = .ok (f a) s' := by rw [map_apply, hx]
    exact iff_of_false (failsWith_of_ok hmap) (failsWith_of_ok hx)
  | error e s' =>
    have hmap : (f <$> x) s = .error e s' := by rw [map_apply, hx]
    rw [failsWith_of_error hmap, failsWith_of_error hx]

/-- **Sequencing.**  Either the first step fails, or the second after it. -/
theorem failsWith_bind (x : EStateM ε σ α) (f : α → EStateM ε σ β) (s : σ) :
    FailsWith P (x >>= f) s ↔
      FailsWith P x s ∨ ∃ a s', x s = .ok a s' ∧ FailsWith P (f a) s' := by
  cases hx : x s with
  | ok a s' =>
    rw [or_iff_right (failsWith_of_ok hx)]
    unfold FailsWith
    rw [bind_of_ok hx]
    constructor
    · intro h
      exact ⟨a, s', rfl, h⟩
    · rintro ⟨b, t, ⟨⟩, h⟩
      exact h
  | error e s' =>
    rw [failsWith_of_error (bind_of_error hx), failsWith_of_error hx]
    simp

/-- What is given fails with the error that it is. -/
theorem failsWith_given (x : Except ε α) (s : σ) :
    FailsWith P (given x : EStateM ε σ α) s ↔ ∃ e, x = .error e ∧ P e := by
  cases x with
  | ok a => exact iff_of_false (failsWith_of_ok (given_of_ok rfl s)) (by simp)
  | error e =>
    rw [failsWith_of_error (given_of_error rfl s)]
    simp

/-- A change fails with the error that prevents it. -/
theorem failsWith_attempt (f : σ → Except ε (α × σ)) (s : σ) :
    FailsWith P (attempt f) s ↔ ∃ e, f s = .error e ∧ P e := by
  unfold FailsWith attempt
  cases f s with
  | ok p => simp
  | error e => simp

end

/-! ### A relation between the states before and after -/

/-- From `s`, the program ends in a state related to `s`. -/
def Respects (R : σ → σ → Prop) (x : EStateM ε σ α) (s : σ) : Prop := R s (final (x s))

namespace Respects

variable {R : σ → σ → Prop}

/-- Returning a value respects what holds of every state and itself. -/
theorem pure (hr : ∀ s, R s s) (a : α) (s : σ) :
    Respects R (Pure.pure a : EStateM ε σ α) s := hr s

/-- Throwing an error respects what holds of every state and itself. -/
theorem throw (hr : ∀ s, R s s) (e : ε) (s : σ) :
    Respects R (MonadExcept.throw e : EStateM ε σ α) s := hr s

/-- Looking at the state respects what holds of every state and itself. -/
theorem observe (hr : ∀ s, R s s) (f : σ → Except ε α) (s : σ) :
    Respects R (Program.observe f) s := by
  unfold Respects Program.observe
  cases f s <;> exact hr s

/-- An `attempt` respects `R` as soon as its effect does. -/
theorem attempt (hr : ∀ s, R s s) {f : σ → Except ε (α × σ)} {s : σ}
    (h : ∀ a s', f s = .ok (a, s') → R s s') : Respects R (Program.attempt f) s := by
  unfold Respects Program.attempt
  cases hf : f s with
  | ok p => obtain ⟨a, s'⟩ := p; exact h a s' hf
  | error e => exact hr s

/-- Renaming the errors of a program respects what it respects. -/
theorem mapError {g : ε → ε'} {x : EStateM ε σ α} {s : σ} (h : Respects R x s) :
    Respects R (Program.mapError g x) s := by
  unfold Respects Program.mapError at *
  cases hx : x s <;> rw [hx] at h <;> exact h

/-- A function of the result respects what the program respects. -/
theorem map {x : EStateM ε σ α} {f : α → β} {s : σ} (h : Respects R x s) :
    Respects R (f <$> x) s := by
  unfold Respects at *
  rw [map_apply]
  cases hx : x s <;> rw [hx] at h <;> exact h

/-- **Sequencing.**  The rest of the program only has to respect `R` from the states
    the first step can hand over. -/
theorem bind (ht : ∀ {a b c}, R a b → R b c → R a c) {x : EStateM ε σ α}
    {f : α → EStateM ε σ β} {s : σ} (hx : Respects R x s)
    (hf : ∀ a s', x s = .ok a s' → Respects R (f a) s') : Respects R (x >>= f) s := by
  unfold Respects at *
  rw [bind_apply]
  cases h : x s with
  | ok a s' =>
    rw [h] at hx
    exact ht hx (hf a s' h)
  | error e s' =>
    rw [h] at hx
    exact hx

end Respects

/-! ### Programs that only read -/

/-- The program never changes the state. -/
def Quiet (x : EStateM ε σ α) : Prop := ∀ s, final (x s) = s

namespace Quiet

/-- Returning a value is quiet. -/
theorem pure (a : α) : Quiet (Pure.pure a : EStateM ε σ α) := fun _ => rfl

/-- Throwing an error is quiet. -/
theorem throw (e : ε) : Quiet (MonadExcept.throw e : EStateM ε σ α) := fun _ => rfl

/-- Looking at the state is quiet. -/
theorem observe (f : σ → Except ε α) : Quiet (Program.observe f) := by
  intro s
  unfold Program.observe
  cases f s <;> rfl

/-- Renaming errors keeps a program quiet. -/
theorem mapError {g : ε → ε'} {x : EStateM ε σ α} (h : Quiet x) :
    Quiet (Program.mapError g x) := by
  intro s
  have hs := h s
  unfold Program.mapError
  cases hx : x s <;> rw [hx] at hs <;> exact hs

/-- A function of the result keeps a program quiet. -/
theorem map {f : α → β} {x : EStateM ε σ α} (h : Quiet x) : Quiet (f <$> x) := fun s =>
  (final_map x f s).trans (h s)

/-- Quiet programs one after another are quiet. -/
theorem bind {x : EStateM ε σ α} {f : α → EStateM ε σ β} (hx : Quiet x)
    (hf : ∀ a, Quiet (f a)) : Quiet (x >>= f) := by
  intro s
  have hs := hx s
  rw [bind_apply]
  cases h : x s with
  | ok a s' =>
    rw [h] at hs
    exact (hf a s').trans hs
  | error e s' =>
    rw [h] at hs
    exact hs

/-- What is done before a quiet program is all that is done. -/
theorem final_bind {x : EStateM ε σ α} {f : α → EStateM ε σ β} (hf : ∀ a, Quiet (f a)) (s : σ) :
    final ((x >>= f) s) = final (x s) := by
  rw [bind_apply]
  cases x s with
  | ok a s' => exact hf a s'
  | error e s' => rfl

/-- A quiet program respects whatever is reflexive. -/
theorem respects {R : σ → σ → Prop} (hr : ∀ s, R s s) {x : EStateM ε σ α} (h : Quiet x)
    (s : σ) : Respects R x s := by
  unfold Respects
  rw [h s]
  exact hr s

/-- A quiet program that succeeds ends where it began. -/
theorem state_eq {x : EStateM ε σ α} (h : Quiet x) {s s' : σ} {a : α} (hx : x s = .ok a s') :
    s' = s := by
  have hs := h s
  rwa [hx] at hs

end Quiet

/-! ### Programs that take effect or fail -/

/-- The program changes nothing when it fails. -/
def Atomic (x : EStateM ε σ α) : Prop := ∀ s e s', x s = .error e s' → s' = s

namespace Atomic

/-- A change that is made at once or not at all is atomic. -/
theorem attempt (f : σ → Except ε (α × σ)) : Atomic (Program.attempt f) := fun _ _ _ h =>
  eq_of_attempt_error h

/-- Renaming errors keeps a program atomic. -/
theorem mapError {g : ε → ε'} {x : EStateM ε σ α} (h : Atomic x) :
    Atomic (Program.mapError g x) := by
  intro s e s' herr
  unfold Program.mapError at herr
  cases hx : x s with
  | ok a s₁ =>
    rw [hx] at herr
    cases herr
  | error e' s₁ =>
    rw [hx] at herr
    cases herr
    exact h s e' s' hx

/-- Reading first does no harm. -/
theorem bind_of_quiet {x : EStateM ε σ α} {f : α → EStateM ε σ β} (hx : Quiet x)
    (hf : ∀ a, Atomic (f a)) : Atomic (x >>= f) := by
  intro s e s' herr
  have hs := hx s
  rw [bind_apply] at herr
  cases h : x s with
  | ok a s₁ =>
    rw [h] at hs herr
    exact (hf a s₁ e s' herr).trans hs
  | error e' s₁ =>
    rw [h] at hs herr
    cases herr
    exact hs

/-- Such a program respects a reflexive relation if it does where it succeeds. -/
theorem respects {R : σ → σ → Prop} (hr : ∀ s, R s s) {x : EStateM ε σ α} (h : Atomic x) {s : σ}
    (hok : ∀ a s', x s = .ok a s' → R s s') : Respects R x s := by
  unfold Respects
  cases hx : x s with
  | ok a s' => exact hok a s' hx
  | error e s' =>
    rw [h s e s' hx]
    exact hr s

end Atomic

/-! ### Programs that keep a part of the state -/

/-- The program never changes what `f` sees of the state. -/
def Preserves {γ : Type} (f : σ → γ) (x : EStateM ε σ α) : Prop := ∀ s, f (final (x s)) = f s

/-- What is quiet preserves whatever can be read off the state. -/
theorem Quiet.preserves {γ : Type} (f : σ → γ) {x : EStateM ε σ α} (h : Quiet x) :
    Preserves f x := fun s => congrArg f (h s)

namespace Preserves

variable {γ : Type} {f : σ → γ}

/-- A change that keeps what is read off preserves it. -/
theorem attempt {g : σ → Except ε (α × σ)} (h : ∀ s a s', g s = .ok (a, s') → f s' = f s) :
    Preserves f (Program.attempt g) := fun s =>
  Respects.attempt (R := fun s s' => f s' = f s) (fun _ => rfl) fun a s' hs => h s a s' hs

/-- Renaming errors preserves what the program preserves. -/
theorem mapError {g : ε → ε'} {x : EStateM ε σ α} (h : Preserves f x) :
    Preserves f (Program.mapError g x) := fun s =>
  Respects.mapError (R := fun s s' => f s' = f s) (h s)

/-- A function of the result preserves what the program preserves. -/
theorem map {g : α → β} {x : EStateM ε σ α} (h : Preserves f x) : Preserves f (g <$> x) :=
  fun s => Respects.map (R := fun s s' => f s' = f s) (h s)

/-- Programs one after another preserve what both preserve. -/
theorem bind {x : EStateM ε σ α} {g : α → EStateM ε σ β} (hx : Preserves f x)
    (hg : ∀ a, Preserves f (g a)) : Preserves f (x >>= g) := fun s =>
  Respects.bind (R := fun s s' => f s' = f s) (fun hab hbc => hbc.trans hab) (hx s)
    fun a s' _ => hg a s'

/-- A program that succeeds ends in a state that looks as it did. -/
theorem eq_of_ok {x : EStateM ε σ α} (h : Preserves f x) {s s' : σ} {a : α}
    (hx : x s = .ok a s') : f s' = f s := by
  have hs := h s
  rwa [hx] at hs

end Preserves

end Program
