import Mathlib.Tactic.Common

/-!
# Programs with a state and failures

Rules for programs that change a state and may fail, where a failure keeps the state it was met in. What
every step does to the state, a program does whether it fails or not; and a program whose steps are all
sure to succeed succeeds.
-/

set_option autoImplicit false

namespace Db8.Programs

variable {ε σ α β : Type}

def last : EStateM.Result ε σ α → σ
  | .ok _ state => state
  | .error _ state => state

theorem bind_eq (first : EStateM ε σ α) (next : α → EStateM ε σ β) (state : σ) :
    (first >>= next) state = match first state with
      | .ok result after => next result after
      | .error err after => .error err after := by
  change EStateM.bind first next state = _
  unfold EStateM.bind
  cases first state <;> rfl

variable {next : α → EStateM ε σ β} {first : EStateM ε σ α}

theorem bind_ok {state after : σ} {out : β} (ran : (first >>= next) state = .ok out after) :
    ∃ result middle, first state = .ok result middle ∧ next result middle = .ok out after := by
  rw [bind_eq] at ran
  cases began : first state with
  | error err middle =>
    rw [began] at ran
    cases ran
  | ok result middle =>
    rw [began] at ran
    exact ⟨result, middle, rfl, ran⟩

theorem bind_error {state after : σ} {err : ε} (ran : (first >>= next) state = .error err after) :
    first state = .error err after ∨
      ∃ result middle, first state = .ok result middle ∧ next result middle = .error err after := by
  rw [bind_eq] at ran
  cases began : first state with
  | error other middle =>
    rw [began] at ran
    cases ran
    exact Or.inl rfl
  | ok result middle =>
    rw [began] at ran
    exact Or.inr ⟨result, middle, rfl, ran⟩

theorem bind_of_ok {state middle : σ} {result : α}
    (ran : first state = .ok result middle) : (first >>= next) state = next result middle := by
  rw [bind_eq, ran]

section Within

variable {related : σ → σ → Prop}

/-- However the program ends, the state has changed as the relation allows. -/
def Within (related : σ → σ → Prop) (prog : EStateM ε σ α) : Prop :=
  ∀ state, related state (last (prog state))

theorem Within.of_ok {prog : EStateM ε σ α} {state after : σ} {result : α}
    (inside : Within related prog) (ran : prog state = .ok result after) : related state after := by
  have held := inside state
  rwa [ran] at held

theorem Within.of_error {prog : EStateM ε σ α} {state after : σ} {err : ε}
    (inside : Within related prog) (ran : prog state = .error err after) : related state after := by
  have held := inside state
  rwa [ran] at held

theorem within_pure (refl : ∀ state, related state state) (result : α) :
    Within related (pure result : EStateM ε σ α) := fun state => refl state

theorem within_get (refl : ∀ state, related state state) :
    Within related (get : EStateM ε σ σ) := fun state => refl state

theorem within_throw (refl : ∀ state, related state state) (err : ε) :
    Within related (throw err : EStateM ε σ α) := fun state => refl state

theorem within_modify {change : σ → σ} (changes : ∀ state, related state (change state)) :
    Within related (modify change : EStateM ε σ PUnit) := fun state => changes state

theorem Within.bind (trans : ∀ {first second third : σ}, related first second →
      related second third → related first third)
    {first : EStateM ε σ α} {next : α → EStateM ε σ β} (inside : Within related first)
    (onward : ∀ result, Within related (next result)) : Within related (first >>= next) := by
  intro state
  rw [bind_eq]
  cases began : first state with
  | error err middle => exact inside.of_error began
  | ok result middle => exact trans (inside.of_ok began) (onward result middle)

end Within

section Sure

variable {smooth : σ → Prop}

/-- From a state that meets the condition the program succeeds, and the condition is met after it. -/
def Sure (smooth : σ → Prop) (prog : EStateM ε σ α) : Prop :=
  ∀ state, smooth state → ∃ result after, prog state = .ok result after ∧ smooth after

theorem sure_pure (result : α) : Sure smooth (pure result : EStateM ε σ α) :=
  fun state holds => ⟨result, state, rfl, holds⟩

theorem sure_get : Sure smooth (get : EStateM ε σ σ) := fun state holds => ⟨state, state, rfl, holds⟩

theorem sure_modify {change : σ → σ} (keeps : ∀ state, smooth state → smooth (change state)) :
    Sure smooth (modify change : EStateM ε σ PUnit) :=
  fun state holds => ⟨PUnit.unit, change state, rfl, keeps state holds⟩

theorem Sure.bind {first : EStateM ε σ α} {next : α → EStateM ε σ β} (sure : Sure smooth first)
    (onward : ∀ result, Sure smooth (next result)) : Sure smooth (first >>= next) := by
  intro state holds
  rcases sure state holds with ⟨result, middle, ran, kept⟩
  rw [bind_of_ok ran]
  exact onward result middle kept

end Sure

end Db8.Programs
